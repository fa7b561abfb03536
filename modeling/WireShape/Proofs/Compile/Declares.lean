import Mathlib.Data.List.Pairwise
import WireShape.Proofs.Compile.Collected

/-!
# What declarations define

Declared schemas are defined under their names, and so are the classes that walks from them meet. For
schemas that can be declared in any order, these definitions are told without the order: each name has
one definition, and the names of schemas and of classes keep apart.

* `Heap.Gives`: what a value compiles to, whatever is known.
* `Heap.Declares`: the definitions that declared schemas lead to.
* `Heap.Unordered`: schemas that can be declared in any order.
* `Heap.Unordered.unique`: each name has one definition.
-/

namespace WireShape

namespace Heap

/-- What a value compiles to, whatever is known. -/
def Gives (h : Heap) (v : Value) (r : Compiled) : Prop :=
  ∃ ctx after, Runs (h.compile v) ctx r after

/-- A position at or below one of the declared schemas. -/
def Under (h : Heap) (es : OrderedMap Atom Value) (t : Schema) : Prop :=
  ∃ e ∈ es, ∃ s, rootSchema e.2 = .ok s ∧ h.Reaches s t

/-- The definitions that declared schemas lead to: each schema under its name, and each class that a
walk from one of them meets. -/
inductive Declares (h : Heap) (es : OrderedMap Atom Value) : Atom → Atom → Value → Prop
  | schema {e : Atom × Value} {d : Value} (he : e ∈ es) (hd : h.Gives e.2 (some d)) :
      Declares h es (.str "schemas") e.1 d
  | met {e : Atom × Value} {s t : Schema} {b n : Atom} {d : Value} (he : e ∈ es)
      (hs : rootSchema e.2 = .ok s) (ht : h.Meets s t) (hd : h.Defines t b n d) : Declares h es b n d

/-- A name under which declared schemas lead to a definition. -/
def DeclaresName (h : Heap) (es : OrderedMap Atom Value) (b n : Atom) : Prop :=
  ∃ d, h.Declares es b n d

/-- The name of a declared schema, by its identity. -/
def NamesIdentity (h : Heap) (es : OrderedMap Atom Value) (i : Identity) (name : Atom) : Prop :=
  ∃ e ∈ es, e.1 = name ∧ e.2.identity? = some i ∧
    ∃ d shape, h.Gives e.2 (some d) ∧ Json.canonical h.describe d = .ok shape

/-- The name of a declared schema, by its shape. -/
def NamesShape (h : Heap) (es : OrderedMap Atom Value) (shape : String) (name : Atom) : Prop :=
  ∃ e ∈ es, e.1 = name ∧ ∃ d, h.Gives e.2 (some d) ∧ Json.canonical h.describe d = .ok shape

/-- Two declared schemas have no shape in common. -/
def TellsApart (h : Heap) (e f : Atom × Value) : Prop :=
  ∀ d d' shape, h.Gives e.2 (some d) → h.Gives f.2 (some d') →
    Json.canonical h.describe d = .ok shape → Json.canonical h.describe d' ≠ .ok shape

/-- Schemas that can be declared in any order. Their names are different texts (other keys, such as 1
and true, may be the same and yet show differently), and none of them is that of a class. Each
identity stands for one value. The positions below are uniform. Schemas that are not forbidden have
different shapes. -/
structure Unordered (h : Heap) (es : OrderedMap Atom Value) : Prop where
  separate : es.Separate
  named : ∀ e ∈ es, e.1.isText = true
  identities : ∀ e ∈ es, ∀ f ∈ es, ∀ i, e.2.identity? = some i → f.2.identity? = some i → e.2 = f.2
  uniform : h.Uniform (h.Under es)
  classes : ∀ t n, h.Under es t → (h.view t).class? = .ok (some (.str "schemas", n)) →
    ∀ e ∈ es, e.1 ≠ n
  shapes : es.Pairwise h.TellsApart

variable {h : Heap} {es fs : OrderedMap Atom Value} {e f : Atom × Value} {s t : Schema} {b n : Atom}
  {d d' : Value}

theorem TellsApart.symm (hef : h.TellsApart e f) : h.TellsApart f e :=
  fun d d' shape hd hd' hshape hshape' => hef d' d shape hd' hd hshape' hshape

theorem Under.below (ht : h.Under es s) (hstep : h.Holds s t) : h.Under es t := by
  obtain ⟨e, he, root, hroot, hs⟩ := ht
  exact ⟨e, he, root, hroot, hs.tail hstep⟩

theorem under_root (he : e ∈ es) (hs : rootSchema e.2 = .ok s) : h.Under es s :=
  ⟨e, he, s, hs, .refl⟩

/-- What is defined in another bucket than that of schemas is a class. -/
theorem Declares.exists_defines (hd : h.Declares es b n d) (hb : b ≠ .str "schemas") :
    ∃ t, h.Under es t ∧ h.Defines t b n d := by
  cases hd with
  | schema => exact absurd rfl hb
  | met he hs ht hd => exact ⟨_, ⟨_, he, _, hs, ht.reaches⟩, hd⟩

/-! ## In another order -/

theorem Under.perm (ht : h.Under es t) (hperm : es.Perm fs) : h.Under fs t := by
  obtain ⟨e, he, hrest⟩ := ht
  exact ⟨e, hperm.mem_iff.mp he, hrest⟩

theorem under_perm (hperm : es.Perm fs) : h.Under fs = h.Under es :=
  funext fun _ => propext ⟨fun ht => ht.perm hperm.symm, fun ht => ht.perm hperm⟩

theorem Declares.perm (hd : h.Declares es b n d) (hperm : es.Perm fs) : h.Declares fs b n d := by
  cases hd with
  | schema he hd => exact .schema (hperm.mem_iff.mp he) hd
  | met he hs ht hd => exact .met (hperm.mem_iff.mp he) hs ht hd

theorem namesIdentity_perm (hperm : es.Perm fs) {i : Identity} :
    h.NamesIdentity fs i n ↔ h.NamesIdentity es i n := by
  simp only [NamesIdentity, hperm.mem_iff]

theorem namesShape_perm (hperm : es.Perm fs) {shape : String} :
    h.NamesShape fs shape n ↔ h.NamesShape es shape n := by
  simp only [NamesShape, hperm.mem_iff]

theorem declares_perm (hperm : es.Perm fs) : h.Declares fs b n d ↔ h.Declares es b n d :=
  ⟨fun hd => hd.perm hperm.symm, fun hd => hd.perm hperm⟩

namespace Unordered

variable (hes : h.Unordered es)
include hes

theorem perm (hperm : es.Perm fs) : h.Unordered fs where
  separate := hperm.pairwise hes.separate fun hne => by rwa [BEq.comm]
  named e he := hes.named e (hperm.mem_iff.mpr he)
  identities e he f hf := hes.identities e (hperm.mem_iff.mpr he) f (hperm.mem_iff.mpr hf)
  uniform := by
    rw [under_perm hperm]
    exact hes.uniform
  classes t n ht hclass e he :=
    hes.classes t n (ht.perm hperm.symm) hclass e (hperm.mem_iff.mpr he)
  shapes := hperm.pairwise hes.shapes TellsApart.symm

/-! ## One definition for each name -/

theorem noForbiddenClass (hs : h.Under es s) : h.NoForbiddenClass s := by
  intro t ht hclass
  obtain ⟨e, he, root, hroot, hreaches⟩ := hs
  exact hes.uniform.allowed ⟨e, he, root, hroot, hreaches.trans ht⟩ hclass

/-- A declared schema compiles to one schema. -/
theorem gives_unique (he : e ∈ es) {r r' : Compiled} (hr : h.Gives e.2 r) (hr' : h.Gives e.2 r') :
    r = r' := by
  obtain ⟨_, _, hrun⟩ := hr
  obtain ⟨_, _, hrun'⟩ := hr'
  have hallowed : h.NoForbiddenClassIn e.2 := fun s hs => hes.noForbiddenClass (under_root he hs)
  exact hallowed.one_outcome hrun hrun'

/-- Declared schemas of one shape are one. -/
theorem same_entry (he : e ∈ es) (hf : f ∈ es) (hd : h.Gives e.2 (some d))
    (hd' : h.Gives f.2 (some d')) {shape : String} (hshape : Json.canonical h.describe d = .ok shape)
    (hshape' : Json.canonical h.describe d' = .ok shape) : e = f := by
  by_contra hne
  have : Std.Symm h.TellsApart := ⟨fun _ _ => TellsApart.symm⟩
  exact hes.shapes.forall he hf hne d d' shape hd hd' hshape hshape'

/-- The names of declared schemas and of classes are texts. -/
theorem texts (hd : h.Declares es b n d) : b.isText = true ∧ n.isText = true := by
  cases hd with
  | schema he => exact ⟨rfl, hes.named _ he⟩
  | met he hs ht hd => exact hes.uniform.named ⟨_, he, _, hs, ht.reaches⟩ hd.class?

theorem text_names (hn : h.DeclaresName es b n) : b.isText = true ∧ n.isText = true := by
  obtain ⟨_, hd⟩ := hn
  exact hes.texts hd

/-- The same bucket is an equal one. -/
theorem names_congr {j : Atom} (hb : (j == b) = true) (hn : h.DeclaresName es j n) :
    h.DeclaresName es b n := Atom.eq_of_isText hb (hes.text_names hn).1 ▸ hn

/-- No class has the name of a declared schema. -/
theorem not_class (he : e ∈ es) (ht : h.Under es t) (hd : h.Defines t (.str "schemas") n d) :
    e.1 ≠ n := hes.classes t n ht hd.class? e he

/-- Each name has one definition. -/
theorem unique (hd : h.Declares es b n d) (hd' : h.Declares es b n d') : d = d' := by
  generalize hn : n = m at hd'
  generalize hb : b = b' at hd'
  cases hd with
  | @schema e d he hd =>
    cases hd' with
    | @schema f _ hf hd' =>
      have hfound := hes.separate.get? he (Atom.beq_self (hes.named e he))
      have hfound' := hes.separate.get? hf (Atom.beq_self (hes.named f hf))
      rw [← hn, hfound] at hfound'
      rw [← Option.some.inj hfound'] at hd'
      exact Option.some.inj (hes.gives_unique he hd hd')
    | met hf hs ht hd' =>
      subst hb
      exact absurd hn (hes.not_class he ⟨_, hf, _, hs, ht.reaches⟩ hd')
  | met he hs ht hd =>
    cases hd' with
    | schema hf hd' =>
      subst hb
      exact absurd hn.symm (hes.not_class hf ⟨_, he, _, hs, ht.reaches⟩ hd)
    | met hf hs' ht' hd' =>
      subst hb hn
      have hunder : h.Under es _ := ⟨_, he, _, hs, ht.reaches⟩
      have hunder' : h.Under es _ := ⟨_, hf, _, hs', ht'.reaches⟩
      have hcopy := hes.uniform.copies hunder hunder' hd.class? hd'.class?
      have hallowed := hes.uniform.class_allowed hunder' hd'.class?
      exact (hd.copied hcopy hallowed).unique (hes.noForbiddenClass hunder') hd'

theorem namesIdentity_unique {i : Identity} {name name' : Atom} (hname : h.NamesIdentity es i name)
    (hname' : h.NamesIdentity es i name') : name = name' := by
  obtain ⟨e, he, rfl, hid, d, shape, hd, hshape⟩ := hname
  obtain ⟨f, hf, rfl, hid', _⟩ := hname'
  have hsame := hes.identities e he f hf i hid hid'
  rw [hes.same_entry he hf hd (hsame ▸ hd) hshape hshape]

theorem namesShape_unique {shape : String} {name name' : Atom} (hname : h.NamesShape es shape name)
    (hname' : h.NamesShape es shape name') : name = name' := by
  obtain ⟨e, he, rfl, d, hd, hshape⟩ := hname
  obtain ⟨f, hf, rfl, d', hd', hshape'⟩ := hname'
  rw [hes.same_entry he hf hd hd' hshape hshape']

end Unordered

end Heap

end WireShape
