import WireShape.Compile.Walk
import WireShape.Proofs.Compile.Scalars
import WireShape.Proofs.Runs

/-!
# Failures that are no matter of the path

A walk that may nest only so deep is cut off with a failure of its own, `Fault.unbounded`, and one
whose path comes back to a node fails with `Fault.cyclicSchema`. What is asked of nodes and values
on the way never fails like this: whatever goes wrong there is an error of the description.

* `Fault.isOfPath`: the failures that the path of a walk decides about.
* `Genuine`: computations that have no such failure.
* `genuine_quoted`, `genuine_display`: values can be shown, or cannot for a reason.
* `Scalar.genuine_keywords`: so it is with the keywords of scalar nodes.
* `genuine_rootSchema`: and with values that stand for schemas.
-/

namespace WireShape

open Value (Fields)

/-- The failures of a walk whose path is too long or comes back to a node. -/
def Fault.isOfPath : Fault → Bool
  | .unbounded | .cyclicSchema _ => true
  | _ => false

/-- A computation that does not fail for the path of a walk. -/
def Genuine {α : Type} (r : Except Fault α) : Prop :=
  ∀ fault, r = .error fault → fault.isOfPath = false

section Sequences

variable {α β γ : Type} {r : Except Fault α} {f : α → Except Fault β}

theorem genuine_ok {a : α} : Genuine (.ok a) := nofun

theorem genuine_error {fault : Fault} (h : fault.isOfPath = false) :
    Genuine (.error fault : Except Fault α) := by
  rintro _ ⟨⟩
  exact h

theorem Genuine.bind (hr : Genuine r) (hf : ∀ a, Genuine (f a)) : Genuine (r >>= f) := by
  cases r with
  | error fault => exact genuine_error (hr fault rfl)
  | ok a => exact hf a

theorem Genuine.foldlM {g : γ → α → Except Fault γ} {xs : List α} {c : γ}
    (hg : ∀ c a, Genuine (g c a)) : Genuine (xs.foldlM g c) := by
  induction xs generalizing c with
  | nil => exact genuine_ok
  | cons a xs ih => exact (hg c a).bind fun _ => ih

end Sequences

/-! ## Values -/

section Values

variable {describe : Describe} {v : Value} {a : Atom}

theorem genuine_asKey : Genuine v.asKey := by
  cases v with
  | atom a => exact genuine_ok
  | _ => exact genuine_error rfl

theorem genuine_spread : Genuine v.spread := by
  cases v with
  | map => exact genuine_ok
  | _ => exact genuine_error rfl

theorem genuine_get {key : Atom} : Genuine (v.get key) := by
  cases v with
  | map => exact genuine_ok
  | _ => exact genuine_error rfl

theorem genuine_elements : Genuine v.elements := by
  unfold Value.elements
  split
  · exact genuine_ok
  · exact genuine_error rfl

theorem genuine_writePairs {index : Nat} {pairs : List Value} {acc : OrderedMap Atom Value} :
    Genuine (Value.writePairs index pairs acc) := by
  induction pairs generalizing index acc with
  | nil => exact genuine_ok
  | cons pair pairs ih =>
    unfold Value.writePairs
    split
    · exact genuine_error rfl
    · exact genuine_asKey.bind fun _ => ih
    · exact genuine_error rfl

theorem genuine_toEntries : Genuine v.toEntries := by
  cases v with
  | map => exact genuine_ok
  | _ => exact genuine_elements.bind fun _ => genuine_writePairs

theorem Node.genuine_describe {n : Node} : Genuine n.describe := by
  unfold Node.describe
  dsimp only
  split
  · split
    · exact genuine_ok
    · exact genuine_error rfl
  · exact genuine_ok

theorem genuine_atom_quoted (hdescribe : ∀ id, Genuine (describe id)) :
    Genuine (a.quoted describe) := by
  cases a with
  | node id => exact hdescribe id
  | _ => exact genuine_ok

theorem genuine_atom_display (hdescribe : ∀ id, Genuine (describe id)) :
    Genuine (a.display describe) := by
  cases a with
  | node id => exact hdescribe id
  | _ => exact genuine_ok

mutual

theorem genuine_quoted (hdescribe : ∀ id, Genuine (describe id)) :
    ∀ v : Value, Genuine (v.quoted describe)
  | .atom _ => by
    rw [Value.quoted]
    exact genuine_atom_quoted hdescribe
  | .list xs => by
    rw [Value.quoted]
    exact (genuine_quotedItems hdescribe xs).bind fun _ => genuine_ok
  | .map es _ => by
    rw [Value.quoted]
    exact (genuine_quotedEntries hdescribe es).bind fun _ => genuine_ok
  | .mediaType schema examples => by
    rw [Value.quoted]
    exact (genuine_quoted hdescribe schema).bind fun _ =>
      (genuine_quoted hdescribe examples).bind fun _ => genuine_ok
  | .requestBody content description required => by
    rw [Value.quoted]
    exact (genuine_quoted hdescribe content).bind fun _ =>
      (genuine_quoted hdescribe description).bind fun _ =>
        (genuine_quoted hdescribe required).bind fun _ => genuine_ok
  | .response description content => by
    rw [Value.quoted]
    exact (genuine_quoted hdescribe description).bind fun _ =>
      (genuine_quoted hdescribe content).bind fun _ => genuine_ok

theorem genuine_quotedItems (hdescribe : ∀ id, Genuine (describe id)) :
    ∀ xs : List Value, Genuine (Value.quotedItems describe xs)
  | [] => genuine_ok
  | x :: xs => by
    rw [Value.quotedItems]
    exact (genuine_quoted hdescribe x).bind fun _ =>
      (genuine_quotedItems hdescribe xs).bind fun _ => genuine_ok

theorem genuine_quotedEntries (hdescribe : ∀ id, Genuine (describe id)) :
    ∀ es : List (Atom × Value), Genuine (Value.quotedEntries describe es)
  | [] => genuine_ok
  | (_, v) :: es => by
    rw [Value.quotedEntries]
    exact (genuine_atom_quoted hdescribe).bind fun _ =>
      (genuine_quoted hdescribe v).bind fun _ =>
        (genuine_quotedEntries hdescribe es).bind fun _ => genuine_ok

end

theorem genuine_display (hdescribe : ∀ id, Genuine (describe id)) :
    Genuine (v.display describe) := by
  cases v with
  | atom a => exact genuine_atom_display hdescribe
  | _ => exact genuine_quoted hdescribe _

theorem genuine_referenceTo (hdescribe : ∀ id, Genuine (describe id)) {bucket name : Atom} :
    Genuine (referenceTo describe bucket name) :=
  (genuine_atom_display hdescribe).bind fun _ => (genuine_atom_display hdescribe).bind fun _ =>
    genuine_ok

end Values

/-! ## Nodes -/

section Nodes

variable {n : Node} {limit fallback : Value}

theorem Node.genuine_limitValue : Genuine (n.limitValue limit fallback) := by
  unfold Node.limitValue
  split
  · unfold Node.siblingValue
    dsimp only
    split
    · exact genuine_get.bind fun _ => genuine_ok
    · exact genuine_ok
  · exact genuine_ok

theorem Node.genuine_sizeKeywords {suffix : String} : Genuine (n.sizeKeywords suffix) := by
  refine .foldlM fun fields rule => Node.genuine_limitValue.bind fun limit => ?_
  split <;> exact genuine_ok

theorem Scalar.genuine_limitKeyword {name : String} {limit : Option Value} {fields : Fields} :
    Genuine (Scalar.limitKeyword n name limit fields) := by
  cases limit with
  | none => exact genuine_ok
  | some limit => exact Node.genuine_limitValue.bind fun _ => genuine_ok

theorem Scalar.genuine_keywords {kind : Scalar} : Genuine (kind.keywords n) := by
  cases kind with
  | number =>
    rw [Scalar.keywords, Scalar.numberKeywords_eq]
    exact genuine_limitKeyword.bind fun _ => genuine_limitKeyword.bind fun _ => genuine_ok
  | string => exact Node.genuine_sizeKeywords.bind fun _ => genuine_ok
  | binary => exact Node.genuine_sizeKeywords.bind fun _ => genuine_ok
  | _ => exact genuine_ok

theorem genuine_markRequired {schema : Value} : Genuine (markRequired schema) :=
  genuine_spread.bind fun _ => genuine_ok

end Nodes

/-! ## Positions -/

mutual

theorem genuine_ofValue : ∀ v : Value, Genuine (Schema.ofValue v)
  | .map es _ => by
    rw [Schema.ofValue]
    exact (genuine_ofEntries es).bind fun _ => genuine_ok
  | .atom a => by
    cases a with
    | node => exact genuine_ok
    | _ => exact genuine_error rfl
  | .list _ => genuine_error rfl
  | .mediaType .. => genuine_error rfl
  | .requestBody .. => genuine_error rfl
  | .response .. => genuine_error rfl

theorem genuine_ofEntries : ∀ es : List (Atom × Value), Genuine (Schema.ofEntries es)
  | [] => genuine_ok
  | (_, v) :: es => by
    rw [Schema.ofEntries]
    exact (genuine_ofValue v).bind fun _ => (genuine_ofEntries es).bind fun _ => genuine_ok

end

theorem genuine_rootSchema {v : Value} : Genuine (rootSchema v) := by
  unfold rootSchema
  split
  · exact genuine_error rfl
  · exact genuine_ofValue _

end WireShape
