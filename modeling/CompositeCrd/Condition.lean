import CompositeCrd.DocumentFormat

/-!
# Conditions

What the API server reports about a custom resource definition. The definition is established,
and its instances can be created, when the first condition of the type *Established* is true;
further conditions of that type count for nothing.
-/

namespace CompositeCrd

open RecordFormat

/-- How a condition stands. -/
inductive ConditionStatus where
  | true
  | false
  | unknown
deriving DecidableEq, Repr

instance : Spelled ConditionStatus where
  all := [.true, .false, .unknown]
  spell
    | .true => "True"
    | .false => "False"
    | .unknown => "Unknown"

/-- An observation about a custom resource definition. -/
structure Condition where
  /-- What is observed. -/
  type : String
  /-- How it stands. -/
  status : ConditionStatus
  /-- Why, in a word. -/
  reason : Option String := none
  /-- Why, in a sentence. -/
  message : Option String := none
  /-- Since when. -/
  lastTransitionTime : Option String := none
deriving DecidableEq

namespace Condition

/-- The document form. -/
def form {C : Type → Type} [RecordFormat C] : C Condition :=
  record
    (.required "type" text <| .required "status" spelled <| .optional "reason" text <|
      .optional "message" text <| .optional "lastTransitionTime" text .done)
    (fun (type, status, reason, message, lastTransitionTime, _) =>
      { type, status, reason, message, lastTransitionTime })
    (fun c => (c.type, c.status, c.reason, c.message, c.lastTransitionTime, ()))

/-- The type of the condition that tells whether instances can be created. -/
def establishedType : String :=
  "Established"

/-- Whether conditions say that instances can be created. -/
def established (conditions : List Condition) : Bool :=
  match conditions.find? (·.type == establishedType) with
  | some c => c.status == .true
  | none => Bool.false

end Condition

/-- What is reported about a custom resource definition. -/
structure CrdStatus where
  /-- The conditions. -/
  conditions : List Condition := []
deriving DecidableEq

namespace CrdStatus

/-- The document form. -/
def form {C : Type → Type} [RecordFormat C] : C CrdStatus :=
  record (.defaulted "conditions" (list Condition.form) [] .done)
    (fun (conditions, _) => { conditions }) (fun s => (s.conditions, ()))

/-- Whether instances can be created. -/
def established (s : CrdStatus) : Bool :=
  Condition.established s.conditions

end CrdStatus

end CompositeCrd
