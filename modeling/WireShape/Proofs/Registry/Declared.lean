import WireShape.Proofs.Compile.Declares
import WireShape.Proofs.Registry.Overwriting
import WireShape.Proofs.Registry.Reordered

/-!
# Schemas declared in any order

After schemas have been declared that can be declared in any order, the registry has all definitions
that they lead to and no other ones, and the names by identity and by shape are those of the schemas.
None of this speaks of the order.

* `Components.From`: definitions of one sort, apart from each other.
* `Registry.Gathers`: a registry that has only what the declared schemas lead to.
* `Registry.HasDeclared`: a registry that has all that one of them leads to.
* `Registry.Gathers.reordered`: declaring in two orders leaves the same, in two orders.
-/

namespace WireShape

namespace Components

variable {B : Atom → Prop} {Q : Atom → Atom → Value → Prop} {c : Components} {b n : Atom} {d : Value}

/-- Definitions of one sort, apart from each other. Some buckets always exist; for any other one
there are such definitions. -/
structure From (B : Atom → Prop) (Q : Atom → Atom → Value → Prop) (c : Components) : Prop where
  apart : c.Apart
  exist : ∀ b, B b → OrderedMap.contains c b = true
  buckets : ∀ bucket ∈ c, B bucket.1 ∨ ∃ n d, Q bucket.1 n d
  entries : ∀ bucket ∈ c, ∀ entry ∈ bucket.2, Q bucket.1 entry.1 entry.2

/-- A bucket is found under its key. -/
theorem Apart.bucket_eq (hc : c.Apart) {bucket : Atom × OrderedMap Atom Value} (hbucket : bucket ∈ c)
    (hb : (bucket.1 == b) = true) : c.bucket b = bucket.2 := by
  rw [Components.bucket, OrderedMap.getD, hc.buckets.get? hbucket hb]
  rfl

/-- What stands in a bucket is found there. -/
theorem Apart.find? (hc : c.Apart) {bucket : Atom × OrderedMap Atom Value} (hbucket : bucket ∈ c)
    {entry : Atom × Value} (hentry : entry ∈ bucket.2) (hb : (bucket.1 == b) = true)
    (hn : (entry.1 == n) = true) : c.find? b n = some entry.2 := by
  rw [Components.find?, hc.bucket_eq hbucket hb]
  exact (hc.names bucket hbucket).get? hentry hn

namespace From

theorem nil : From (fun _ => False) Q [] :=
  ⟨⟨.nil, fun _ hb => by cases hb⟩, fun _ hb => hb.elim, fun _ hb => (by cases hb),
    fun _ hb => by cases hb⟩

variable (htexts : ∀ {b n d}, Q b n d → b.isText = true ∧ n.isText = true)

include htexts in
theorem define (hc : c.From B Q) (hd : Q b n d) : From B Q (c.define b n d) := by
  have hsame : ∀ {k j : Atom}, (k == j) = true → j.isText = true → k = j :=
    fun hk hj => (Atom.eq_of_isText (BEq.symm hk) hj).symm
  refine ⟨hc.apart.define, fun b' hb' => ?_, fun bucket hbucket => ?_,
    fun bucket hbucket entry hentry => ?_⟩
  · rw [Components.define, OrderedMap.contains_insert, hc.exist b' hb', Bool.or_true]
  · rcases mem_define hbucket with hold | ⟨entries, hold, _⟩ | rfl
    · exact hc.buckets bucket hold
    · exact hc.buckets (bucket.1, entries) hold
    · exact .inr ⟨n, d, hd⟩
  · rcases mem_define hbucket with hold | ⟨entries, hold, hnew, hb⟩ | rfl
    · exact hc.entries bucket hold entry hentry
    · rw [hnew] at hentry
      obtain rfl := hsame hb (htexts hd).1
      rcases OrderedMap.mem_insert hentry with hin | ⟨heq, hkey⟩
      · exact hc.entries _ hold entry hin
      · rw [heq]
        rcases hkey with hkey | ⟨_, hkey⟩
        · rwa [hkey]
        · rwa [hsame hkey (htexts hd).2]
    · rw [List.mem_singleton.mp hentry]
      exact hd

omit htexts in
theorem opened (hc : c.From B Q) (hb : B b ∨ ∃ n d, Q b n d)
    (hnew : OrderedMap.contains c b = false) : From B Q (c ++ [(b, [])]) := by
  refine ⟨hc.apart.opened hnew, fun b' hb' => ?_, fun bucket hbucket => ?_,
    fun bucket hbucket entry hentry => ?_⟩
  · obtain ⟨bucket, hbucket, hsame⟩ := OrderedMap.contains_iff.mp (hc.exist b' hb')
    exact OrderedMap.contains_iff.mpr ⟨bucket, List.mem_append_left _ hbucket, hsame⟩
  · rcases List.mem_append.mp hbucket with hold | hopened
    · exact hc.buckets bucket hold
    · rw [List.mem_singleton.mp hopened]
      exact hb
  · rcases List.mem_append.mp hbucket with hold | hopened
    · exact hc.entries bucket hold entry hentry
    · rw [List.mem_singleton.mp hopened] at hentry
      cases hentry

include htexts in
/-- What is found is of that sort. -/
theorem found (hc : c.From B Q) (hfound : c.find? b n = some d) : Q b n d := by
  obtain ⟨bucket, hbucket, entry, hentry, hb, hn, rfl⟩ := mem_of_find? hfound
  have hd := hc.entries bucket hbucket entry hentry
  rwa [Atom.eq_of_isText hb (htexts hd).1, Atom.eq_of_isText hn (htexts hd).2] at hd

include htexts in
theorem mem_bucket (hc : c.From B Q) {entry : Atom × Value} (hentry : entry ∈ c.bucket b) :
    Q b entry.1 entry.2 := by
  unfold Components.bucket OrderedMap.getD at hentry
  cases hget : OrderedMap.get? c b with
  | none =>
    rw [hget] at hentry
    cases hentry
  | some entries =>
    rw [hget] at hentry
    obtain ⟨k, hk, hb⟩ := OrderedMap.mem_of_get? hget
    have hd := hc.entries _ hk entry hentry
    rwa [Atom.eq_of_isText hb (htexts hd).1] at hd

variable {c' : Components} {T : Atom → Atom → Prop}

include htexts in
theorem text_bucket (hc : c.From B Q) (hB : ∀ b, B b → b.isText = true)
    {bucket : Atom × OrderedMap Atom Value} (hbucket : bucket ∈ c) : bucket.1.isText = true := by
  rcases hc.buckets bucket hbucket with hb | ⟨n, d, hd⟩
  · exact hB _ hb
  · exact (htexts hd).1

include htexts in
/-- Where the same is found, each bucket has the same definitions. -/
theorem bucket_perm (hc : c.From B Q) (hc' : c'.From B Q) (hfound : c'.find? = c.find?) :
    (c.bucket b).Perm (c'.bucket b) := by
  refine OrderedMap.perm_of_get? hc.apart.bucket hc'.apart.bucket
    (fun e he => (htexts (hc.mem_bucket htexts he)).2)
    (fun e he => (htexts (hc'.mem_bucket htexts he)).2) ?_
  funext n
  exact congrFun (congrFun hfound b) n

include htexts in
/-- Where the same buckets exist, they are those of the other definitions in another order. -/
theorem buckets_perm (hc : c.From B Q) (hc' : c'.From B Q) (hB : ∀ b, B b → b.isText = true)
    (hcontains : ∀ b, OrderedMap.contains c' b = OrderedMap.contains c b) :
    c.Perm (c'.map fun bucket => (bucket.1, c.bucket bucket.1)) := by
  refine OrderedMap.perm_of_get? hc.apart.buckets (List.pairwise_map.mpr hc'.apart.buckets)
    (fun _ => hc.text_bucket htexts hB) (fun bucket hbucket => ?_) (funext fun b => ?_)
  · obtain ⟨bucket', hbucket', rfl⟩ := List.mem_map.mp hbucket
    exact (hc'.text_bucket htexts hB hbucket' :)
  · rw [OrderedMap.get?_map_keys fun _ _ => bucket_congr]
    have hsome := hcontains b
    unfold OrderedMap.contains at hsome
    cases hget : OrderedMap.get? c b with
    | none =>
      rw [hget, Option.isSome_none, Option.isSome_eq_false_iff, Option.isNone_iff_eq_none] at hsome
      rw [hsome]
      rfl
    | some entries =>
      rw [hget, Option.isSome_some] at hsome
      obtain ⟨entries', hget'⟩ := Option.isSome_iff_exists.mp hsome
      rw [hget', Components.bucket, OrderedMap.getD, hget]
      rfl

include htexts in
/-- Where the same is found in the same buckets, these are the same in another order. -/
theorem reordered (hc : c.From B Q) (hc' : c'.From B Q) (hB : ∀ b, B b → b.isText = true)
    (hT : ∀ b n d, Q b n d → T b n) (hfound : c'.find? = c.find?)
    (hcontains : ∀ b, OrderedMap.contains c' b = OrderedMap.contains c b) : c.Reordered T c' := by
  refine ⟨_, hc.buckets_perm htexts hc' hB hcontains,
    List.forall₂_map_left_iff.mpr (List.forall₂_same.mpr fun bucket hbucket => ⟨rfl, ?_⟩)⟩
  have hself := Atom.beq_self (hc'.text_bucket htexts hB hbucket)
  have hperm := hc.bucket_perm (b := bucket.1) htexts hc' hfound
  rw [hc'.apart.bucket_eq hbucket hself] at hperm
  exact ⟨_, _, [], (List.append_nil _).symm, (List.append_nil _).symm, hperm,
    fun e he => hT _ _ _ (hc.mem_bucket htexts he)⟩

end From

end Components

namespace Registry

variable {h : Heap} {es fs : OrderedMap Atom Value} {e : Atom × Value} {reg mid after : Registry}
  {r : Compiled} {b n name : Atom} {i : Unit}

/-! ## Merging -/

section Merging

variable {B : Atom → Prop} {Q : Atom → Atom → Value → Prop} {created : Components}

/-- To merge definitions of one sort leaves definitions of that sort. -/
theorem merge_from (htexts : ∀ {b n d}, Q b n d → b.isText = true ∧ n.isText = true)
    (hrun : Runs (merge h created) reg i after) (hcreated : created.From (fun _ => False) Q)
    (hreg : reg.components.From B Q) : after.components.From B Q := by
  refine runs_merge_preserves (I := fun later => later.components.From B Q) hrun ?_ ?_ hreg
  · intro bucket hbucket reg _ after hopen hreg
    have hnew := (hcreated.buckets bucket hbucket).resolve_left id
    rw [runs_openBucket_iff.mp hopen]
    split
    · exact hreg
    · rename_i hb
      exact hreg.opened (.inr hnew) (Bool.eq_false_iff.mpr hb)
  · intro bucket hbucket entry hentry reg after hadd hreg
    cases hadd with
    | new => exact hreg.define htexts (hcreated.entries bucket hbucket entry hentry)
    | old => exact hreg

/-- After merging, the names are those from before and those that were created. -/
theorem merge_contains_iff (hrun : Runs (merge h created) reg i after) (hcreated : created.Apart)
    (hreg : reg.components.Apart) : after.components.contains b n =
      (created.contains b n || reg.components.contains b n) := by
  refine Bool.eq_iff_iff.mpr ⟨?_, fun hn => ?_⟩
  · rw [Bool.or_eq_true]
    refine runs_merge_preserves (I := fun later => later.components.contains b n = true →
      created.contains b n = true ∨ reg.components.contains b n = true) hrun ?_ ?_ .inr
    · intro bucket _ reg _ after hopen hreg hn
      rw [Components.contains, openBucket_bucket hopen] at hn
      exact hreg hn
    · intro bucket hbucket entry hentry reg after hadd hreg hn
      cases hadd with
      | old => exact hreg hn
      | new =>
        rw [Components.contains_define, Bool.or_eq_true, Bool.and_eq_true] at hn
        rcases hn with ⟨hb, hn⟩ | hold
        · refine .inl ?_
          rw [Components.contains_eq_isSome, hcreated.find? hbucket hentry hb hn]
          rfl
        · exact hreg hold
  · rcases Bool.or_eq_true_iff.mp hn with hnew | hold
    · exact merge_contains hrun hnew
    · exact (merge_sustains hrun hreg.bucket).1.contains b n hold

end Merging

/-! ## Registries in which schemas are declared -/

/-- The buckets that every registry has. -/
def IsOwnBucket (b : Atom) : Prop := b = .str "schemas" ∨ b = .str "parameters"

/-- A registry that has only what the declared schemas lead to, and with each class all those on the
way from it. -/
structure Gathers (h : Heap) (es : OrderedMap Atom Value) (reg : Registry) : Prop where
  components : reg.components.From IsOwnBucket (h.Declares es)
  settled : h.Settled (h.Under es) reg.components.contains
  byIdentity : ∀ x ∈ reg.byIdentity, h.NamesIdentity es x.1 x.2
  byShape : ∀ x ∈ reg.byShape, h.NamesShape es x.1 x.2

/-- A registry that has all that a declared schema leads to. -/
structure HasDeclared (h : Heap) (reg : Registry) (e : Atom × Value) : Prop where
  collects : ∀ s, rootSchema e.2 = .ok s → h.Collects reg.components.contains s
  defined : ∀ d, h.Gives e.2 (some d) → reg.components.contains (.str "schemas") e.1 = true
  byIdentity : ∀ d identity, h.Gives e.2 (some d) → e.2.identity? = some identity →
    reg.byIdentity.contains identity = true
  byShape : ∀ d shape, h.Gives e.2 (some d) → Json.canonical h.describe d = .ok shape →
    reg.byShape.contains shape = true

/-- A registry in which everything has a name that has one in another registry. -/
structure Keeps (reg after : Registry) : Prop where
  contains : ∀ b n, reg.components.contains b n = true → after.components.contains b n = true
  byIdentity : ∀ identity, reg.byIdentity.contains identity = true →
    after.byIdentity.contains identity = true
  byShape : ∀ shape, reg.byShape.contains shape = true → after.byShape.contains shape = true

theorem HasDeclared.later (he : HasDeclared h reg e) (hkeeps : reg.Keeps after) :
    HasDeclared h after e where
  collects s hs := (he.collects s hs).mono hkeeps.contains
  defined d hd := hkeeps.contains _ _ (he.defined d hd)
  byIdentity d identity hd hid := hkeeps.byIdentity _ (he.byIdentity d identity hd hid)
  byShape d shape hd hshape := hkeeps.byShape _ (he.byShape d shape hd hshape)

/-- At the start no bucket has a definition. -/
theorem empty_start : ∀ bucket ∈ ({} : Registry).components, bucket.2 = [] := by
  intro bucket hbucket
  rcases List.mem_cons.mp hbucket with rfl | hlast
  · rfl
  · rw [List.mem_singleton.mp hlast]

/-- At the start all definitions are of any sort, as there are none. -/
theorem from_start {Q : Atom → Atom → Value → Prop} :
    ({} : Registry).components.From IsOwnBucket Q := by
  refine ⟨⟨?_, fun bucket hbucket => ?_⟩, ?_, fun bucket hbucket => .inl ?_,
    fun bucket hbucket entry hentry => ?_⟩
  · exact List.pairwise_cons.mpr ⟨fun e he => by
      rw [List.mem_singleton.mp he]
      decide, List.pairwise_singleton _ _⟩
  · rw [empty_start bucket hbucket]
    exact .nil
  · rintro b (rfl | rfl) <;> rfl
  · rcases List.mem_cons.mp hbucket with rfl | hlast
    · exact .inl rfl
    · rw [List.mem_singleton.mp hlast]
      exact .inr rfl
  · rw [empty_start bucket hbucket] at hentry
    cases hentry

theorem gathers_start : Gathers h es {} := by
  refine ⟨from_start, ?_, ?_, ?_⟩
  · intro s b n _ _ hn
    obtain ⟨_, hfound⟩ := Option.isSome_iff_exists.mp hn
    obtain ⟨bucket, hbucket, entry, hentry, _⟩ := Components.mem_of_find? hfound
    rw [empty_start bucket hbucket] at hentry
    cases hentry
  · exact fun _ hx => by cases hx
  · exact fun _ hx => by cases hx

/-- To compile a declared schema leaves only what declared schemas lead to, and all classes that a
walk from it meets. -/
theorem Compiling.gathers (hes : h.Unordered es) (he : e ∈ es)
    (hcompile : Compiling h (h.compile e.2) reg r after) (hreg : Gathers h es reg) :
    Gathers h es after ∧ reg.Keeps after ∧ h.Gives e.2 r ∧
      ∀ s, rootSchema e.2 = .ok s → h.Collects after.components.contains s := by
  obtain @⟨ctx, logged, _, hwalk, hlogged, hmerge⟩ := hcompile
  obtain ⟨s, hs, hrun⟩ := runs_compile_iff.mp hwalk
  have hwalked := walked_of_runs hrun
  have hcreated : ctx.created.From (fun _ => False) (h.Declares es) :=
    hwalked.creates (fun t b n d c ht hd hc => hc.define hes.texts (.met he hs ht hd)) .nil
  have hstart : logged.components.From _ (h.Declares es) := hlogged.components ▸ hreg.components
  obtain ⟨hidentity, hshape⟩ := merge_bindings hmerge
  rw [hlogged.byIdentity] at hidentity
  rw [hlogged.byShape] at hshape
  have hknown : ctx.known = reg.components := hwalked.extends.known
  have hhas : after.components.contains = ctx.has := by
    funext b n
    rw [merge_contains_iff hmerge hcreated.apart hstart.apart, hlogged.components, Context.has,
      hknown]
  have hbefore : h.Settled (h.Under es) ({ known := reg.components } : Context).has := hreg.settled
  obtain ⟨hsettled, hcollects⟩ := hwalked.collects hes.uniform (fun _ _ => Heap.Under.below)
    (Heap.under_root he hs) hbefore
  refine ⟨⟨merge_from hes.texts hmerge hcreated hstart, hhas ▸ hsettled, ?_, ?_⟩,
    ⟨fun b n hn => ?_, fun _ hx => ?_, fun _ hx => ?_⟩, ⟨_, _, hwalk⟩, fun s' hs' => ?_⟩
  · rw [hidentity]
    exact hreg.byIdentity
  · rw [hshape]
    exact hreg.byShape
  · rw [hhas]
    exact hwalked.extends.has b n hn
  · rwa [hidentity]
  · rwa [hshape]
  · cases hs.symm.trans hs'
    rw [hhas]
    exact hcollects

theorem Keeps.trans (h₁ : reg.Keeps mid) (h₂ : mid.Keeps after) : reg.Keeps after :=
  ⟨fun b n hn => h₂.contains b n (h₁.contains b n hn),
    fun x hx => h₂.byIdentity x (h₁.byIdentity x hx), fun x hx => h₂.byShape x (h₁.byShape x hx)⟩

theorem SameData.gathers (hsame : after.SameData reg) (hreg : Gathers h es reg) :
    Gathers h es after :=
  ⟨hsame.components ▸ hreg.components, hsame.components ▸ hreg.settled,
    hsame.byIdentity ▸ hreg.byIdentity, hsame.byShape ▸ hreg.byShape⟩

theorem SameData.keeps (hsame : after.SameData reg) : reg.Keeps after :=
  ⟨fun b n hn => by rwa [hsame.components], fun _ hx => by rwa [hsame.byIdentity],
    fun _ hx => by rwa [hsame.byShape]⟩

/-- To write the names of a declared schema keeps all names and adds its own. -/
theorem keeps_declared {v schema : Value} {shape : String}
    (hcomponents : after.components = mid.components.define (.str "schemas") name schema)
    (hidentity : after.byIdentity = mid.bound v name)
    (hbyShape : after.byShape = mid.byShape.insert shape name) : mid.Keeps after := by
  refine ⟨contains_of_define hcomponents, fun x hx => ?_, fun x hx => ?_⟩
  · rw [hidentity, bound]
    split
    · rw [OrderedMap.contains_insert, hx, Bool.or_true]
    · exact hx
  · rw [hbyShape, OrderedMap.contains_insert, hx, Bool.or_true]

/-- To declare a schema leaves only what declared schemas lead to, and all that this one leads to. -/
theorem Declaring.gathers (hes : h.Unordered es) (he : e ∈ es)
    (hdeclare : Declaring h e.1 e.2 reg after) (hreg : Gathers h es reg) :
    Gathers h es after ∧ reg.Keeps after ∧ HasDeclared h after e := by
  cases hdeclare with
  | @skip mid hcompile hafter =>
    obtain ⟨hmid, hkeeps, hgives, hcollects⟩ := hcompile.gathers hes he hreg
    have hnone : ∀ d, ¬ h.Gives e.2 (some d) := by
      intro d hd
      cases hes.gives_unique he hgives hd
    refine ⟨hafter.gathers hmid, hkeeps.trans hafter.keeps, fun s hs => ?_, fun d hd => ?_,
      fun d _ hd => ?_, fun d _ hd => ?_⟩
    · rw [hafter.components]
      exact hcollects s hs
    all_goals exact absurd hd (hnone d)
  | @define mid schema shape hcompile hshape hcomponents hidentity hbyShape =>
    obtain ⟨hmid, hkeeps, hgives, hcollects⟩ := hcompile.gathers hes he hreg
    have hlater := keeps_declared hcomponents hidentity hbyShape
    have hnamed := Atom.beq_self (hes.named e he)
    refine ⟨⟨?_, ?_, ?_, ?_⟩, hkeeps.trans hlater, fun s hs => ?_, fun d hd => ?_, ?_, ?_⟩
    · rw [hcomponents]
      exact hmid.components.define hes.texts (.schema he hgives)
    · -- The name of a declared schema is that of no class, so the classes are those from before.
      intro t b n ht hown hn
      rw [hcomponents, Components.contains_define, Bool.or_eq_true, Bool.and_eq_true] at hn
      rcases hn with ⟨hb, hn⟩ | hold
      · obtain rfl := Atom.str_beq_iff.mp hb
        exact absurd (Atom.eq_of_isText hn (hes.named e he)) (hes.classes t n ht hown.2 e he)
      · exact (hmid.settled t b n ht hown hold).mono hlater.contains
    · rw [hidentity]
      intro x hx
      rcases mem_bound hx with hold | ⟨hid, heq⟩
      · exact hmid.byIdentity x hold
      · exact ⟨e, he, heq.symm, hid, schema, shape, hgives, hshape⟩
    · rw [hbyShape]
      intro x hx
      rcases mem_insert_shape hx with hold | rfl
      · exact hmid.byShape x hold
      · exact ⟨e, he, rfl, schema, hgives, hshape⟩
    · exact (hcollects s hs).mono hlater.contains
    · rw [hcomponents, Components.contains_define, hnamed]
      rfl
    · intro d identity _ hid
      rw [hidentity, bound, hid]
      dsimp only
      rw [OrderedMap.contains_insert, BEq.rfl, Bool.true_or]
    · intro d shape' hd hshape'
      cases hes.gives_unique he hgives hd
      cases hshape.symm.trans hshape'
      rw [hbyShape, OrderedMap.contains_insert, BEq.rfl, Bool.true_or]

/-- After all schemas have been declared, the registry has what they lead to and nothing else. -/
theorem declared_gathers (hes : h.Unordered es)
    (hrun : Runs (es.forM fun e => do discard <| declare h e.1 e.2) {} i reg) :
    Gathers h es reg ∧ ∀ e ∈ es, HasDeclared h reg e := by
  have hstep : ∀ e ∈ es, ∀ reg i after, Runs (do discard <| declare h e.1 e.2) reg i after →
      Gathers h es reg → Gathers h es after ∧ reg.Keeps after ∧ HasDeclared h after e := by
    intro e he reg i after hrun hreg
    obtain ⟨_, mid, hdeclare, hlast⟩ := runs_bind_iff.mp hrun
    obtain ⟨_, rfl⟩ := runs_pure_iff.mp hlast
    exact (runs_declare hdeclare).gathers hes he hreg
  obtain ⟨_, hchain⟩ := runs_forM_iff.mp hrun
  obtain ⟨hreg, hall⟩ := hchain.forall₂ (I := Gathers h es) (P := fun e _ reg => HasDeclared h reg e)
    (fun e he reg i after hrun hreg =>
      have hdone := hstep e he reg i after hrun hreg
      ⟨hdone.1, hdone.2.2⟩)
    (fun e he reg i after hrun hreg _ _ hdone => hdone.later (hstep e he reg i after hrun hreg).2.1)
    gathers_start
  refine ⟨hreg, fun e he => ?_⟩
  obtain ⟨_, _, hdone⟩ := forall₂_left hall he
  exact hdone

/-! ## What is found after all have been declared -/

section Found

variable (hes : h.Unordered es) (hreg : Gathers h es reg) (hall : ∀ e ∈ es, HasDeclared h reg e)
include hes hreg hall

theorem Gathers.find?_iff {d : Value} :
    reg.components.find? b n = some d ↔ h.Declares es b n d := by
  refine ⟨hreg.components.found hes.texts, fun hd => ?_⟩
  have hn : reg.components.contains b n = true := by
    cases hd with
    | schema he hd => exact (hall _ he).defined _ hd
    | met he hs ht hd =>
      exact (hall _ he).collects _ hs _ _ _ ht ⟨hd.override_isNull, hd.class?⟩
  obtain ⟨d', hfound⟩ := Option.isSome_iff_exists.mp hn
  have hd' := hreg.components.found hes.texts hfound
  exact (congrArg some (hes.unique hd' hd)) ▸ hfound

theorem Gathers.contains_bucket_iff : OrderedMap.contains reg.components b = true ↔
    IsOwnBucket b ∨ ∃ n d, h.Declares es b n d := by
  constructor
  · intro hb
    obtain ⟨bucket, hbucket, hsame⟩ := OrderedMap.contains_iff.mp hb
    have htext : bucket.1.isText = true := by
      rcases hreg.components.buckets bucket hbucket with (heq | heq) | ⟨n, d, hd⟩
      · rw [heq]
        rfl
      · rw [heq]
        rfl
      · exact (hes.texts hd).1
    obtain rfl := Atom.eq_of_isText hsame htext
    exact hreg.components.buckets bucket hbucket
  · rintro (hb | ⟨n, d, hd⟩)
    · exact hreg.components.exist b hb
    · obtain ⟨bucket, hbucket, _, _, hb, _⟩ :=
        Components.mem_of_find? ((hreg.find?_iff hes hall).mpr hd)
      exact OrderedMap.contains_iff.mpr ⟨bucket, hbucket, hb⟩

theorem Gathers.byIdentity_iff {identity : Identity} :
    reg.byIdentity.get? identity = some name ↔ h.NamesIdentity es identity name := by
  have hfound : ∀ {name}, reg.byIdentity.get? identity = some name →
      h.NamesIdentity es identity name := by
    intro name hget
    obtain ⟨k, hk, hsame⟩ := OrderedMap.mem_of_get? hget
    exact eq_of_beq hsame ▸ hreg.byIdentity _ hk
  refine ⟨hfound, fun hname => ?_⟩
  obtain ⟨e, he, hn, hid, d, shape, hd, hshape⟩ := hname
  obtain ⟨name', hget⟩ := Option.isSome_iff_exists.mp ((hall e he).byIdentity d identity hd hid)
  rw [hget, hes.namesIdentity_unique (hfound hget) ⟨e, he, hn, hid, d, shape, hd, hshape⟩]

theorem Gathers.byShape_iff {shape : String} :
    reg.byShape.get? shape = some name ↔ h.NamesShape es shape name := by
  have hfound : ∀ {name}, reg.byShape.get? shape = some name → h.NamesShape es shape name := by
    intro name hget
    obtain ⟨k, hk, hsame⟩ := OrderedMap.mem_of_get? hget
    exact eq_of_beq hsame ▸ hreg.byShape _ hk
  refine ⟨hfound, fun hname => ?_⟩
  obtain ⟨e, he, hn, d, hd, hshape⟩ := hname
  obtain ⟨name', hget⟩ := Option.isSome_iff_exists.mp ((hall e he).byShape d shape hd hshape)
  rw [hget, hes.namesShape_unique (hfound hget) ⟨e, he, hn, d, hd, hshape⟩]

/-- Declared in two orders, the schemas leave the same in two orders. -/
theorem Gathers.reordered (hperm : es.Perm fs) {reg' : Registry} (hreg' : Gathers h fs reg')
    (hall' : ∀ e ∈ fs, HasDeclared h reg' e) :
    reg.Reordered (h.DeclaresName es) reg' := by
  have hfs := hes.perm hperm
  have hcomponents' : reg'.components.From IsOwnBucket (h.Declares es) := by
    have hsame : h.Declares fs = h.Declares es := by
      funext b n d
      exact propext (Heap.declares_perm hperm)
    rw [← hsame]
    exact hreg'.components
  refine ⟨hreg.components.reordered hes.texts hcomponents' ?_ (fun b n d hd => ⟨d, hd⟩) ?_ ?_,
    hreg.components.apart, hreg.components.exist _ (.inl rfl), ?_, ?_⟩
  · rintro b (rfl | rfl) <;> rfl
  · funext b n
    refine Option.ext fun d => ?_
    rw [hreg.find?_iff hes hall, hreg'.find?_iff hfs hall', Heap.declares_perm hperm]
  · intro b
    rw [Bool.eq_iff_iff, hreg.contains_bucket_iff hes hall, hreg'.contains_bucket_iff hfs hall']
    simp only [Heap.declares_perm hperm]
  · funext identity
    refine Option.ext fun name => ?_
    rw [hreg.byIdentity_iff hes hall, hreg'.byIdentity_iff hfs hall',
      Heap.namesIdentity_perm hperm]
  · funext shape
    refine Option.ext fun name => ?_
    rw [hreg.byShape_iff hes hall, hreg'.byShape_iff hfs hall', Heap.namesShape_perm hperm]

end Found

end Registry

end WireShape
