import CompositeCrd.Text.Utf8

/-!
# Bytes of a text read back as the text

Reading the bytes of a text gives its characters and no strays (`symbols_encode`). A character
is read byte by byte: its first byte begins a partial character whose bounds let through the
bytes that go on with it, and the last of them completes the character.
-/

namespace CompositeCrd.Utf8

variable {p : Partial} {b n : Nat} {c : Char} {bytes : List UInt8}

/-! ### One byte -/

/-- The character after one more of its bytes. -/
def Partial.next (p : Partial) (b : Nat) : Partial where
  bits := p.bits * 0x40 + (b - 0x80)
  read := p.read + 1
  owed := p.owed - 1

/-- A byte that goes on with a character, but does not complete it. -/
theorem symbolsFrom_next (h : p.low ≤ b ∧ b ≤ p.high) (hb : b < 0x100) (howed : 1 < p.owed) :
    symbolsFrom (some p) (UInt8.ofNat b :: bytes) = symbolsFrom (some (p.next b)) bytes := by
  have hbyte : (UInt8.ofNat b).toNat = b := UInt8.toNat_ofNat_of_lt' hb
  rw [symbolsFrom, hbyte, step, if_pos h]
  simp only
  rw [if_neg (by omega)]
  rfl

/-- A byte that completes a character. -/
theorem symbolsFrom_complete (h : p.low ≤ b ∧ b ≤ p.high) (hb : b < 0x100) (howed : p.owed = 1) :
    symbolsFrom (some p) (UInt8.ofNat b :: bytes)
      = .char (Char.ofNat (p.bits * 0x40 + (b - 0x80))) :: symbolsFrom none bytes := by
  have hbyte : (UInt8.ofNat b).toNat = b := UInt8.toNat_ofNat_of_lt' hb
  rw [symbolsFrom, hbyte, step, if_pos h]
  simp only
  rw [if_pos (by omega)]
  rfl

/-- A byte that begins a character of several bytes. -/
theorem symbolsFrom_lead (hlead : lead b = some p) (hlow : 0x80 ≤ b) (hb : b < 0x100) :
    symbolsFrom none (UInt8.ofNat b :: bytes) = symbolsFrom (some p) bytes := by
  have hbyte : (UInt8.ofNat b).toNat = b := UInt8.toNat_ofNat_of_lt' hb
  rw [symbolsFrom, hbyte, step, start, if_neg (by omega), hlead]
  rfl

/-! ### First bytes -/

theorem lead_two (h : 2 ≤ n) (h' : n < 0x20) :
    lead (0xC0 + n) = some { bits := n, read := 1, owed := 1 } := by
  rw [lead, if_pos (by omega), Nat.add_sub_cancel_left]

/-- The first of three bytes. Behind E0 and ED the second byte is bounded more closely, which
leaves out the codes of shorter encodings and those that are no characters. -/
theorem lead_three (h : 0x800 ≤ n) (h' : n < 0x10000) (hvalid : n < 0xD800 ∨ 0xDFFF < n) :
    ∃ p, lead (0xE0 + n / 0x1000) = some p ∧ p.bits = n / 0x1000 ∧ p.owed = 2
      ∧ p.low ≤ 0x80 + n / 0x40 % 0x40 ∧ 0x80 + n / 0x40 % 0x40 ≤ p.high := by
  -- The first byte is E0, or ED, or one of the others.
  unfold lead
  rw [if_neg (by omega)]
  split
  · refine ⟨_, rfl, ?_, rfl, ?_, ?_⟩ <;> dsimp only <;> omega
  split
  · refine ⟨_, rfl, ?_, rfl, ?_, ?_⟩ <;> dsimp only <;> omega
  · rw [if_pos (by omega)]
    refine ⟨_, rfl, ?_, rfl, ?_, ?_⟩ <;> dsimp only <;> omega

/-- The first of four bytes, where the same is done behind F0 and F4. -/
theorem lead_four (h : 0x10000 ≤ n) (h' : n < 0x110000) :
    ∃ p, lead (0xF0 + n / 0x40000) = some p ∧ p.bits = n / 0x40000 ∧ p.owed = 3
      ∧ p.low ≤ 0x80 + n / 0x1000 % 0x40 ∧ 0x80 + n / 0x1000 % 0x40 ≤ p.high := by
  -- The first byte is F0, or F4, or one of the others.
  unfold lead
  rw [if_neg (by omega), if_neg (by omega), if_neg (by omega), if_neg (by omega)]
  split
  · refine ⟨_, rfl, ?_, rfl, ?_, ?_⟩ <;> dsimp only <;> omega
  split
  · refine ⟨_, rfl, ?_, rfl, ?_, ?_⟩ <;> dsimp only <;> omega
  · rw [if_pos (by omega)]
    refine ⟨_, rfl, ?_, rfl, ?_, ?_⟩ <;> dsimp only <;> omega

/-! ### One character -/

/-- **The bytes of a character are read as the character.** -/
theorem symbolsFrom_encodeChar (c : Char) (bytes : List UInt8) :
    symbolsFrom none (encodeChar c ++ bytes) = .char c :: symbolsFrom none bytes := by
  have hvalid : c.toNat < 0xD800 ∨ 0xDFFF < c.toNat ∧ c.toNat < 0x110000 := c.valid
  have hc : Char.ofNat c.toNat = c := Char.ofNat_toNat c
  -- By the number of bytes: a lead byte opens a partial character, and the last byte completes
  -- it.
  unfold encodeChar
  dsimp only
  split
  · -- One byte.
    next h1 =>
    have hlt : c.toNat < 0x100 := by omega
    have hbyte : (UInt8.ofNat c.toNat).toNat = c.toNat := UInt8.toNat_ofNat_of_lt' hlt
    simp only [List.cons_append, List.nil_append]
    rw [symbolsFrom, hbyte, step, start, if_pos h1, hc]
    rfl
  split
  · -- Two bytes.
    next h1 h2 =>
    have hlead := lead_two (n := c.toNat / 0x40) (by omega) (by omega)
    simp only [List.cons_append, List.nil_append]
    rw [symbolsFrom_lead hlead (by omega) (by omega),
      symbolsFrom_complete (by dsimp only; omega) (by omega) rfl]
    have hbits : c.toNat / 0x40 * 0x40 + (0x80 + c.toNat % 0x40 - 0x80) = c.toNat := by omega
    rw [hbits, hc]
  split
  · -- Three bytes.
    next h1 h2 h3 =>
    obtain ⟨p, hp, hbits, howed, hlow, hhigh⟩ :=
      lead_three (n := c.toNat) (by omega) (by omega) (by omega)
    simp only [List.cons_append, List.nil_append]
    rw [symbolsFrom_lead hp (by omega) (by omega),
      symbolsFrom_next ⟨hlow, hhigh⟩ (by omega) (by omega),
      symbolsFrom_complete (by dsimp only [Partial.next]; omega) (by omega)
        (by dsimp only [Partial.next]; omega)]
    have hvalue : (p.next (0x80 + c.toNat / 0x40 % 0x40)).bits * 0x40
        + (0x80 + c.toNat % 0x40 - 0x80) = c.toNat := by
      dsimp only [Partial.next]
      omega
    rw [hvalue, hc]
  · -- Four bytes.
    next h1 h2 h3 =>
    obtain ⟨p, hp, hbits, howed, hlow, hhigh⟩ := lead_four (n := c.toNat) (by omega) (by omega)
    simp only [List.cons_append, List.nil_append]
    rw [symbolsFrom_lead hp (by omega) (by omega),
      symbolsFrom_next ⟨hlow, hhigh⟩ (by omega) (by omega),
      symbolsFrom_next (by dsimp only [Partial.next]; omega) (by omega)
        (by dsimp only [Partial.next]; omega),
      symbolsFrom_complete (by dsimp only [Partial.next]; omega) (by omega)
        (by dsimp only [Partial.next]; omega)]
    have hvalue : ((p.next (0x80 + c.toNat / 0x1000 % 0x40)).next
        (0x80 + c.toNat / 0x40 % 0x40)).bits * 0x40 + (0x80 + c.toNat % 0x40 - 0x80) = c.toNat := by
      dsimp only [Partial.next]
      omega
    rw [hvalue, hc]

/-- **The bytes of a text are read as its characters.** -/
theorem symbols_encode (s : String) : symbols (encode s) = s.toList.map .char := by
  rw [symbols, encode]
  induction s.toList with
  | nil => rfl
  | cons c cs ih => rw [List.flatMap_cons, symbolsFrom_encodeChar, ih, List.map_cons]

theorem decode?_encode (s : String) : decode? (encode s) = some s := by
  have htext (cs : List Char) : text? (cs.map .char) = some cs := by
    induction cs with
    | nil => rfl
    | cons c cs ih => rw [List.map_cons, text?, ih, Option.map_some]
  rw [decode?, symbols_encode, htext, Option.map_some, String.ofList_toList]

end CompositeCrd.Utf8
