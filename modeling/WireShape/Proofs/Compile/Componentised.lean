import WireShape.Proofs.Compile.Mirrors

/-!
# Schemas with and without classes

A value compiles if it does so where no node has a class, and the schema expands by the definitions
that were created to the schema without classes.

* `Heap.Unambiguous.lookupsAgree`: what has been created is what a glossary says.
* `Heap.compile_expands`: the schema with classes expands to the one without them.
-/

namespace WireShape

section Created

variable {h : Heap} {root s : Schema} {find : Lookup} {ctx after : Context} {r : Compiled}

namespace Heap

/-- All definitions are what classes are registered with by themselves. -/
def OffersAll (h : Heap) (root : Schema) (c : Components) : Prop :=
  ∀ b n d, c.find? b n = some d →
    ∃ bucket name : String, b = .str bucket ∧ n = .str name ∧ h.Offers root bucket name d

theorem OffersAll.lookup {c : Components} (hc : h.OffersAll root c) {bucket name : String}
    {d : Value} (hd : c.lookup bucket name = some d) : h.Offers root bucket name d := by
  obtain ⟨bucket', name', hb, hn, hoffers⟩ := hc _ _ d hd
  cases hb
  cases hn
  exact hoffers

/-- A walk that starts with nothing created creates what classes are registered with. -/
theorem CreatesOffered.offersAll (hcreates : h.CreatesOffered root ctx after)
    (hctx : ctx.created = []) : h.OffersAll root after.created := by
  intro b n d hfound
  rcases hcreates b n d hfound with hold | hnew
  · rw [hctx] at hold
    cases hold
  · exact hnew

/-- What has been created is like what a glossary says, wherever a reference leads. -/
theorem Unambiguous.lookupsAgree (hroot : h.Unambiguous root) (hfind : h.Glossary root find)
    {c : Components} (hoffers : h.OffersAll root c) (horderly : c.Orderly)
    (hclosed : c.RefersWithin (c.Resolves h.describe)) :
    LookupsAgree (fun v w => v.alike w = true) (c.Resolves h.describe) find c.lookup := by
  intro target htarget bucket name d hsplit hd
  obtain ⟨bucket', name', d', hsplit', hd'⟩ := horderly.find htarget
  cases hsplit.symm.trans hsplit'
  obtain ⟨_, t, ht, hregisters⟩ := hoffers.lookup hd'
  obtain ⟨_, u, hu, hregisters'⟩ := hfind.offered bucket name d hd
  exact ⟨d', hd', hroot.consistent t u bucket name d' d ht hu hregisters hregisters',
    hclosed.found hd'⟩

end Heap

/-- Without known definitions, all references are to created ones. -/
theorem Walked.resolves (hrun : Walked h s false {} r after)
    (hnodes : ∀ t, h.Reaches s t → (h.view t).OwnsNoRefs) :
    after.created.RefersWithin (after.created.Resolves h.describe) ∧
      ∀ v, r = some v → v.RefersWithin (after.created.Resolves h.describe) := by
  have hnone : ∀ target, after.Resolves h.describe target →
      after.created.Resolves h.describe target := by
    rintro target (hcreated | ⟨_, _, _, _, ⟨_, hmem, _⟩, _⟩)
    · exact hcreated
    · rw [hrun.extends.known] at hmem
      cases hmem
  obtain ⟨hafter, houtcome⟩ := hrun.closed hnodes fun _ hb => (by cases hb)
  exact ⟨hafter.mono hnone, fun v hv => (houtcome v hv).within.mono hnone⟩

end Created

/-- Where equal names stand for equal definitions, a value compiles as it does without classes: it is
forbidden with them if it is without them, and else its schema expands, by the definitions that come
with it, to the schema without classes. -/
theorem Heap.compile_expands {h : Heap} {v : Value} {s : Schema} (hv : rootSchema v = .ok s)
    (hs : h.Unambiguous s) {plain : Option CompiledSchema}
    (hplain : (h.unnamed.compileAgainst [] v).1 = .ok plain) :
    ∃ named, (h.compileAgainst [] v).1 = .ok named ∧ (named = none ↔ plain = none) ∧
      ∀ c whole, named = some c → plain = some whole → ∃ depth schema,
        expandWithin c.components.lookup depth c.schema = some schema ∧
          schema.alike whole.schema = true := by
  obtain ⟨r, _, hrun, rfl⟩ := compileAgainst_eq_ok_iff.mp hplain
  obtain ⟨s', hs', hrun⟩ := runs_compile_iff.mp hrun
  cases hv.symm.trans hs'
  obtain ⟨find, hfind⟩ := h.exists_glossary s
  obtain ⟨r', hrel, hcall⟩ := hs.mirrors hfind .refl hrun ⟨rfl, rfl⟩
  obtain ⟨after, hnamed, hcreates⟩ := hcall {} fun _ hid => by cases hid
  have hwalked := walked_of_runs hnamed
  refine ⟨r'.map fun schema => ⟨schema, after.created⟩, compileAgainst_eq_ok_iff.mpr ⟨r', after,
    runs_compile_iff.mpr ⟨s, hv, hs.acyclic.runs_iff.mpr hwalked⟩, rfl⟩, ?_, ?_⟩
  · cases hrel <;> simp
  · intro c whole hc hwhole
    cases hrel with
    | none => cases hc
    | @some schema plain hschema =>
      cases hc
      cases hwhole
      obtain ⟨⟨hproper, _, depth, expanded, hexpands, halike⟩, _⟩ := hschema
      have hoffers := hcreates.offersAll rfl
      obtain ⟨hclosed, hwithin⟩ := hwalked.resolves hs.ownsNoRefs
      have horderly := hwalked.orderly hs.namedByText .nil
      -- The schema expands by the glossary, hence by what has been created.
      obtain ⟨schema', hexpands', halike'⟩ := expandWithin_like likeness_alike hfind.proper
        (fun _ _ _ hd => (hoffers.lookup hd).1) (hs.lookupsAgree hfind hoffers horderly hclosed)
        hproper hproper (hwithin _ rfl) hproper.alike_refl hexpands
      exact ⟨depth, schema', hexpands',
        (expandWithin_proper hfind.proper hproper hexpands).alike_trans halike' halike⟩

/-- A booking of a seat and of further places, which are seats or what a text says. -/
def bookingHeap : Heap where
  nodes := #[{ kind := "string" },
    { kind := "object", children := [(.str "row", .node 0)],
      metadata := [(.str "className", .str "Seat")] },
    { kind := "array", items := [.node 1, .node 0] },
    { kind := "object", children := [(.str "seat", .node 1), (.str "places", .node 2)] }]

/-- The same booking; seats are no class. -/
def plainBookingHeap : Heap where
  nodes := #[{ kind := "string" },
    { kind := "object", children := [(.str "row", .node 0)] },
    { kind := "array", items := [.node 1, .node 0] },
    { kind := "object", children := [(.str "seat", .node 1), (.str "places", .node 2)] }]

/-- Without the names of classes it is the plain booking. -/
theorem bookingHeap_unnamed : bookingHeap.unnamed = plainBookingHeap := by
  unfold Heap.unnamed bookingHeap plainBookingHeap
  rw [List.map_toArray]
  rfl

theorem bookingHeap_descends : bookingHeap.Descends := Heap.descends_of_nodes (by decide)

/-- What a seat is defined as. -/
def seatSchema : Value :=
  .ofFields [("type", .str "object"), ("properties", .ofFields [("row", .ofFields
    [("type", .str "string")])]), ("additionalProperties", .bool false)]

theorem bookingHeap_registers {t : Schema} {bucket name : String} {d : Value}
    (ht : bookingHeap.Reaches (.node 3) t) (hd : bookingHeap.Registers t bucket name d) :
    d = seatSchema := by
  obtain ⟨j, hj, rfl⟩ := bookingHeap_descends.reaches ht
  obtain ⟨_, hclass, r, after, hrun, hfound⟩ := hd
  rcases j with _ | _ | _ | _ | j
  · cases hclass
  · obtain ⟨r', after', hrun', hafter⟩ : ∃ r after, Runs (bookingHeap.compileSchema (.node 1)) {} r
        after ∧ after.created.find? (.str "schemas") (.str "Seat") = some seatSchema := ⟨_, _, rfl, rfl⟩
    obtain ⟨_, rfl⟩ := hrun.unique hrun'
    cases hclass
    exact Option.some.inj (hfound.symm.trans hafter)
  all_goals cases hclass

/-- What a position of the plain booking yields is determined. -/
theorem plainBookingHeap_yields {r r' : Compiled} {s : Schema} (hr : plainBookingHeap.Yields s r)
    (hr' : plainBookingHeap.Yields s r') : r = r' := by
  obtain ⟨_, hrun⟩ := hr
  obtain ⟨_, hrun'⟩ := hr'
  exact (hrun.unique hrun').1

theorem plainBookingHeap_descends : plainBookingHeap.Descends := by
  intro id t hholds
  rw [← bookingHeap_unnamed, Heap.holds_unnamed] at hholds
  exact bookingHeap_descends id t hholds

theorem plainBookingHeap_distinguishes : plainBookingHeap.Distinguishes (.node 3) where
  openPart t p ht hopen := by
    obtain ⟨j, _, rfl⟩ := plainBookingHeap_descends.reaches ht
    rcases j with _ | _ | _ | _ | j <;> cases hopen
  listed t kind outcomes schemas ht hkind hyields hlisted := by
    obtain ⟨j, _, rfl⟩ := plainBookingHeap_descends.reaches ht
    rcases j with _ | _ | _ | _ | j
    · cases hkind
      cases hlisted
      exact .nil
    · cases hkind
      cases hlisted
      exact .nil
    · cases hkind
      have hseat : plainBookingHeap.Yields (.node 1) (some seatSchema) := ⟨_, rfl⟩
      have htext : plainBookingHeap.Yields (.node 0)
          (some (.ofFields [("type", .str "string")])) := ⟨_, rfl⟩
      cases hyields with
      | cons hseat' hrest =>
        cases hrest with
        | cons htext' hnone =>
          cases hnone
          obtain rfl := plainBookingHeap_yields hseat hseat'
          obtain rfl := plainBookingHeap_yields htext htext'
          cases hlisted
          decide
    · cases hkind
      cases hlisted
      exact .nil
    · cases hkind
  whens t outcomes schemas ht _ hlisted := by
    obtain ⟨j, _, rfl⟩ := plainBookingHeap_descends.reaches ht
    have hnone : schemas = [] := by
      rcases j with _ | _ | _ | _ | j <;> cases hlisted <;> rfl
    rw [hnone]
    exact .nil

theorem bookingHeap_unambiguous : bookingHeap.Unambiguous (.node 3) where
  acyclic := bookingHeap_descends.acyclic
  noForbiddenClass t ht _ := by
    obtain ⟨j, _, rfl⟩ := bookingHeap_descends.reaches ht
    rcases j with _ | _ | _ | _ | j <;> rfl
  namedByText t ht hnamed := by
    obtain ⟨j, _, rfl⟩ := bookingHeap_descends.reaches ht
    rcases j with _ | _ | _ | _ | j
    · cases hnamed
    · exact ⟨"schemas", "Seat", rfl, rfl, by decide⟩
    all_goals cases hnamed
  consistent t u bucket name d e ht hu hd he := by
    rw [bookingHeap_registers ht hd, bookingHeap_registers hu he]
    decide
  ownsNoRefs t ht := by
    obtain ⟨j, _, rfl⟩ := bookingHeap_descends.reaches ht
    rcases j with _ | _ | _ | _ | j <;> exact ⟨rfl, fun v hv => by cases hv⟩
  supplied t ht v hv := by
    obtain ⟨j, _, rfl⟩ := bookingHeap_descends.reaches ht
    rcases j with _ | _ | _ | _ | j <;> cases hv
  keys t ht e he := by
    obtain ⟨j, _, rfl⟩ := bookingHeap_descends.reaches ht
    rcases j with _ | _ | _ | _ | j
    · cases he
    · obtain rfl := List.mem_singleton.mp he
      rfl
    · cases he
    · rcases List.mem_cons.mp he with rfl | hrest
      · rfl
      · obtain rfl := List.mem_singleton.mp hrest
        rfl
    · cases he
  distinguishes := by
    rw [bookingHeap_unnamed]
    exact plainBookingHeap_distinguishes

/-- A booking refers to a seat twice; expanded, it is the booking without classes. -/
theorem Heap.compile_expands_booking : rootSchema (.node 3) = .ok (.node 3) ∧
    bookingHeap.Unambiguous (.node 3) ∧ ∃ c whole depth schema,
      (bookingHeap.compileAgainst [] (.node 3)).1 = .ok (some c) ∧
        (bookingHeap.unnamed.compileAgainst [] (.node 3)).1 = .ok (some whole) ∧
          c.components.lookup "schemas" "Seat" = some seatSchema ∧
            expandWithin c.components.lookup depth c.schema = some schema ∧
              schema.alike whole.schema = true := by
  obtain ⟨whole, hwhole⟩ : ∃ whole, (bookingHeap.unnamed.compileAgainst [] (.node 3)).1 =
      .ok (some whole) := by
    rw [bookingHeap_unnamed]
    exact ⟨_, rfl⟩
  obtain ⟨c, hc, hseat⟩ : ∃ c, (bookingHeap.compileAgainst [] (.node 3)).1 = .ok (some c) ∧
      c.components.lookup "schemas" "Seat" = some seatSchema := ⟨_, rfl, rfl⟩
  obtain ⟨named, hnamed, _, hexpands⟩ := compile_expands rfl bookingHeap_unambiguous hwhole
  cases hc.symm.trans hnamed
  obtain ⟨depth, schema, hschema, halike⟩ := hexpands c whole rfl rfl
  exact ⟨rfl, bookingHeap_unambiguous, c, whole, depth, schema, hc, hwhole, hseat, hschema, halike⟩

end WireShape
