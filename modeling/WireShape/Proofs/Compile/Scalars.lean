import WireShape.Proofs.Runs
import WireShape.Scalar

/-!
# Keywords of scalars, step by step

The keywords of a number are written one after the other: the type, the sign, the lower limit, the
upper limit and the values. A limit of a rule writes over the limit that the sign gives. The keywords
of a size are written rule by rule.

* `Node.sizeKeywords_keeps`: what writing limits keeps holds of the keywords of a size.
* `Scalar.numberKeywords_eq`: the keywords of a number as these steps.
-/

namespace WireShape

open Value (Fields)

namespace Node

/-- The limit of the rule about the least value. -/
def minimum? (n : Node) : Option Value :=
  match n.rule? "min" with
  | some (.min limit) => some limit
  | _ => none

/-- The limit of the rule about the greatest value. -/
def maximum? (n : Node) : Option Value :=
  match n.rule? "max" with
  | some (.max limit) => some limit
  | _ => none

theorem minimum?_mem (n : Node) {limit : Value} (h : n.minimum? = some limit) :
    .min limit ∈ n.rules := by
  unfold minimum? at h
  split at h
  · rename_i hrule
    cases h
    exact List.mem_of_find?_eq_some hrule
  · cases h

theorem maximum?_mem (n : Node) {limit : Value} (h : n.maximum? = some limit) :
    .max limit ∈ n.rules := by
  unfold maximum? at h
  split at h
  · rename_i hrule
    cases h
    exact List.mem_of_find?_eq_some hrule
  · cases h

/-- What one rule adds to the size keywords. -/
def sizeStep (n : Node) (suffix : String) (fields : Fields) (rule : Rule) : Except Fault Fields := do
  let limit ← n.limitValue (rule.limit?.getD .null)
  match rule with
  | .min _ => return fields.set ("min" ++ suffix) limit
  | .max _ => return fields.set ("max" ++ suffix) limit
  | .length _ => return (fields.set ("min" ++ suffix) limit).set ("max" ++ suffix) limit
  | _ => return fields

/-- The size keywords are written rule by rule. -/
theorem sizeKeywords_eq (n : Node) (suffix : String) :
    n.sizeKeywords suffix = n.rules.foldlM (n.sizeStep suffix) [] := rfl

/-- The rules whose limits are written as keywords. -/
def HasLimit (n : Node) (limit : Value) : Prop :=
  .min limit ∈ n.rules ∨ .max limit ∈ n.rules ∨ .length limit ∈ n.rules

/-- What holds of no keywords and is kept where a limit is written under one of the two names holds of
the size keywords. -/
theorem sizeKeywords_keeps {n : Node} {suffix : String} {fields : Fields} {I : Fields → Prop}
    (hset : ∀ name ∈ ["min" ++ suffix, "max" ++ suffix], ∀ limit v fields, n.HasLimit limit →
      n.limitValue limit = .ok v → I fields → I (fields.set name v)) (hnil : I [])
    (h : n.sizeKeywords suffix = .ok fields) : I fields := by
  rw [sizeKeywords_eq] at h
  refine foldlM_keeps (fun rule hrule acc next hnext hacc => ?_) hnil h
  obtain ⟨v, hv, hnext⟩ := bind_eq_ok_iff.mp hnext
  have hleast := hset ("min" ++ suffix) List.mem_cons_self
  have hmost := hset ("max" ++ suffix) (List.mem_cons_of_mem _ List.mem_cons_self)
  cases rule with
  | min limit =>
    cases hnext
    exact hleast limit v acc (.inl hrule) hv hacc
  | max limit =>
    cases hnext
    exact hmost limit v acc (.inr (.inl hrule)) hv hacc
  | length limit =>
    cases hnext
    exact hmost limit v _ (.inr (.inr hrule)) hv (hleast limit v acc (.inr (.inr hrule)) hv hacc)
  | _ =>
    cases hnext
    exact hacc

end Node

namespace Scalar

/-- The type of a number and, unless it is an integer, its format. -/
def numberType (n : Node) : Fields :=
  if n.hasRule "integer" then Fields.set [] "type" (.str "integer")
  else (Fields.set [] "type" (.str "number")).set "format"
    (.str (if n.hasRule "precision" then "double" else "float"))

/-- The limit that the sign of a number gives. -/
def signKeyword (n : Node) (fields : Fields) : Fields :=
  match n.rule? "sign" with
  | some (.sign .positive) => fields.set "minimum" (.int 1)
  | some (.sign .negative) => fields.set "maximum" (.int (-1))
  | _ => fields

/-- The limit that a rule gives, if there is such a rule. -/
def limitKeyword (n : Node) (name : String) (limit? : Option Value) (fields : Fields) :
    Except Fault Fields :=
  match limit? with
  | some limit => do return fields.set name (← n.limitValue limit)
  | none => .ok fields

theorem limitKeyword_bind {n : Node} {name : String} {limit : Value} {fields : Fields}
    {next : Fields → Except Fault Fields} :
    (n.limitValue limit >>= fun v => pure (fields.set name v) >>= next) =
      limitKeyword n name (some limit) fields >>= next := by
  unfold limitKeyword
  dsimp only
  cases n.limitValue limit <;> rfl

/-- The keywords of a number in the order in which they are written. -/
theorem numberKeywords_eq (n : Node) : numberKeywords n = do
    let fields ← limitKeyword n "minimum" n.minimum? (signKeyword n (numberType n))
    let fields ← limitKeyword n "maximum" n.maximum? fields
    return fields.merge (n.valueKeywords Value.isNumber) := by
  have hmax : ∀ fields : Fields, (match n.rule? "max" with
      | some (.max limit) => n.limitValue limit >>= fun v =>
        pure (fields.set "maximum" v) >>= fun fields =>
          pure (fields.merge (n.valueKeywords Value.isNumber))
      | _ => pure fields >>= fun fields => pure (fields.merge (n.valueKeywords Value.isNumber))) =
      limitKeyword n "maximum" n.maximum? fields >>= fun fields =>
        pure (fields.merge (n.valueKeywords Value.isNumber)) := by
    intro fields
    unfold Node.maximum?
    rcases n.rule? "max" with _ | rule
    · rfl
    · cases rule <;> first | rfl | exact limitKeyword_bind
  have hmin : numberKeywords n = match n.rule? "min" with
      | some (.min limit) => n.limitValue limit >>= fun v =>
        pure ((signKeyword n (numberType n)).set "minimum" v) >>= fun fields =>
          limitKeyword n "maximum" n.maximum? fields >>= fun fields =>
            pure (fields.merge (n.valueKeywords Value.isNumber))
      | _ => pure (signKeyword n (numberType n)) >>= fun fields =>
        limitKeyword n "maximum" n.maximum? fields >>= fun fields =>
          pure (fields.merge (n.valueKeywords Value.isNumber)) := by
    simp only [← hmax]
    rfl
  rw [hmin]
  unfold Node.minimum?
  rcases n.rule? "min" with _ | rule
  · rfl
  · cases rule <;> first | rfl | exact limitKeyword_bind

end Scalar

end WireShape
