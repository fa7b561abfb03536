import WireShape.Proofs.Compile.Absence
import WireShape.Proofs.Guard
import WireShape.Proofs.Validation.Pointers
import WireShape.Proofs.Validation.Refusals

/-!
# Keys that are withheld

A forbidden child leaves nothing behind in a schema but the absence of its key. It is the closing of
the object that keeps the key out of data: where an object is open, or itself forbidden, or compiled
as something else, the key passes (`Container.error_hidden`). A closed object withholds the key from
all data, with whatever other children, conditions and annotations, and under a class of its own.

* `Heap.Hides`: objects with a forbidden child under a key.
* `Heap.Withholds`: of these, the ones that are closed.
* `Heap.Withholds.compiled`: they compile to a schema that leaves the key out.
* `Container.error_withheld`: no data with the key pass, neither a check nor a guard.
-/

namespace WireShape

open Value (Fields)

/-- A class that a reference leads to as it stands, or none. -/
def Node.HasPlainClass (n : Node) : Prop :=
  n.class? = .ok none ∨ ∃ bucket name, n.class? = .ok (some (.str bucket, .str name)) ∧
    Text.IsPlain bucket = true ∧ Text.IsPlain name = true

namespace Heap

/-- An object with nothing in its place and with a bare forbidden child under a key. -/
structure Hides (h : Heap) (s : Schema) (k : Atom) : Prop where
  isObject : (h.view s).kind = "object"
  override : (h.view s).override.isNull = true
  literal : (h.view s).literal.isNull = true
  keys : OrderedMap.Separate (h.view s).children
  child : ∃ e ∈ (h.view s).children, (e.1 == k) = true ∧ (h.view e.2).isForbidden = true ∧
    (h.view e.2).metadata = []

/-- The object is compiled as one, is not forbidden itself, is closed, and has a plain class. -/
structure Withholds (h : Heap) (s : Schema) (k : Atom) : Prop extends h.Hides s k where
  asObject : (h.view s).kind? = some .object
  admitted : (h.view s).isForbidden = false
  closed : (h.view s).isClosed = true
  plainClass : (h.view s).HasPlainClass

end Heap

section Compile

variable {h : Heap} {s : Schema} {k : Atom} {ctx after : Context}

/-- A bare forbidden node gives no schema, whatever is defined. -/
theorem Heap.leavesOut_bare (hforbidden : (h.view s).isForbidden = true)
    (hbare : (h.view s).metadata = []) : h.LeavesOut ctx s := by
  obtain ⟨hoverride, hliteral, hclass, -⟩ := Node.plain_of_bare hbare
  exact ⟨hoverride, hliteral, hforbidden, none, hclass, nofun⟩

/-- What a withholding object compiles its children to leaves the key out. -/
theorem Heap.Withholds.closes {outcomes : List Compiled} {depth : Nat} (hs : h.Withholds s k)
    (hchain : Outcomes (compileWithin h depth) (Kind.parts .object (h.view s)) ctx outcomes after) :
    (objectFields h (h.view s) outcomes).Closes k := by
  obtain ⟨⟨key, child⟩, hchild, hkey, hforbidden, hbare⟩ := hs.child
  have hsome : (h.view s).children.isEmpty = false :=
    List.isEmpty_eq_false_iff.mpr (List.ne_nil_of_mem hchild)
  have hparts : Kind.parts .object (h.view s) = (h.view s).children.map (·.2) := by
    rw [Kind.parts, Node.openPart?, hsome]
    exact List.append_nil _
  rw [hparts] at hchain
  have hlength : (h.view s).children.length = outcomes.length := by
    simpa using hchain.length_eq.symm
  have hpaired : List.Forall₂ (fun e r => (e, r) ∈ (h.view s).children.zip outcomes)
      (h.view s).children outcomes := List.forall₂_iff_zip.mpr ⟨hlength, fun hmem => hmem⟩
  obtain ⟨r, _, hmem⟩ := forall₂_left hpaired hchild
  have houtcomes := List.forall₂_map_left_iff.mp (outcomes_leavesOut hchain)
  obtain rfl : r = none :=
    (List.forall₂_iff_zip.mp houtcomes).2 hmem (Heap.leavesOut_bare hforbidden hbare)
  rw [objectFields, hsome]
  refine ⟨closeObject_additional.trans (if_pos hs.closed), _, closeObject_get?, ?_⟩
  cases hget : OrderedMap.get? (childFields h (h.view s) outcomes).1 k with
  | none => rfl
  | some v =>
    obtain ⟨k', hk', hsame⟩ := OrderedMap.mem_of_get? hget
    have hne := (childFields_shown.1 _ hk').ne_key hs.keys hlength.le hmem
    exact absurd (hne.symm.trans (BEq.trans hsame (BEq.symm hkey))) Bool.false_ne_true

/-- A withholding object compiles to a schema that leaves the key out, or to a reference to one. -/
theorem Heap.Withholds.compiled {r : Compiled} (hs : h.Withholds s k)
    (hrun : Walked h s false {} r after) : ∃ fields : Fields, fields.Closes k ∧
      (r = some (.ofEntries fields) ∨ ∃ bucket name, Text.IsPlain bucket = true ∧
        Text.IsPlain name = true ∧ r = some (reference bucket name) ∧
          after.created.find? (.str bucket) (.str name) = some (.ofEntries fields)) := by
  have hliteral : (h.view s).isLiteral = false := by
    rw [Node.isLiteral, hs.literal]
    rfl
  obtain ⟨_ | depth, hrun⟩ := hrun
  · exact absurd hrun not_runs_throw
  cases runs_compileStep_iff.mp hrun with
  | override hoverride => exact absurd (hoverride.symm.trans hs.override) Bool.false_ne_true
  | literal _ hlit => exact absurd (hliteral.symm.trans hlit) Bool.false_ne_true
  | known _ _ _ hhas => cases hhas
  | forbidden _ _ _ _ hforbidden =>
    exact absurd (hs.admitted.symm.trans hforbidden) Bool.false_ne_true
  | compiled _ _ hclass _ _ _ hkind hparts _ hfields hfinish =>
    cases hs.asObject.symm.trans hkind
    have hbare : (h.view s).literal.truthy = false := by
      rw [Value.isNull_iff.mp hs.literal]
      rfl
    obtain ⟨own, both, hown, rfl, hboth⟩ := Node.assemble_parts hbare hfields
    cases hown
    obtain ⟨described, hdescribed, habsent⟩ := (hs.closes hparts).absent
    have hcloses : Value.Fields.Closes (annotate (h.view s) both) k := by
      refine ⟨?_, described, ?_, habsent⟩
      · rw [get?_annotate (by decide), hboth _ (by decide)]
        exact (hs.closes hparts).closed
      · rw [get?_annotate (by decide), hboth _ (by decide)]
        exact hdescribed
    refine ⟨_, hcloses, ?_⟩
    rcases hs.plainClass with hnone | ⟨bucket, name, hsome, hbucket, hname⟩
    · cases hnone.symm.trans hclass
      cases hfinish
      exact .inl rfl
    · cases hsome.symm.trans hclass
      cases hfinish with
      | define hplace hwhat =>
        cases hplace
        cases hwhat
        refine .inr ⟨bucket, name, hbucket, hname, rfl, ?_⟩
        change (Components.define _ _ _ _).find? _ _ = _
        rw [Components.find?_define, Atom.beq_str_iff.mpr rfl, Atom.beq_str_iff.mpr rfl]
        rfl

end Compile

/-! ## Checking -/

namespace Container

variable {h : Heap} {v : Value} {s : Schema} {k : Atom} {c : Container}
  {es : OrderedMap Atom Value} {identity : Option Nat}

/-- A container that is compiled holds the checked form of a walk's outcome. -/
theorem compile_eq_ok (hc : (compile h v false).1 = .ok c) (hs : rootSchema v = .ok s) :
    ∃ r after, Walked h s false {} r after ∧ ∀ schema, r = some schema →
      ∃ fields : Fields, schema.spread = .ok fields ∧
        NullTypes.expand (.ofEntries (fields.set "components" after.created.toValue)) =
          .ok c.document := by
  obtain ⟨compiled, hcompiled, hc⟩ := bind_eq_ok_iff.mp hc
  obtain ⟨r, after, hrun, rfl⟩ := compileAgainst_eq_ok_iff.mp hcompiled
  obtain ⟨s', hs', hrun⟩ := runs_compile_iff.mp hrun
  cases hs.symm.trans hs'
  refine ⟨r, after, ⟨_, hrun⟩, ?_⟩
  rintro schema rfl
  obtain ⟨fields, hfields, hc⟩ := bind_eq_ok_iff.mp hc
  obtain ⟨document, hdocument, hpure⟩ := bind_eq_ok_iff.mp hc
  cases hpure
  exact ⟨fields, hfields, hdocument⟩

/-- The container of a withholding object refuses all mappings with the key. -/
theorem check_withheld (hs : h.Withholds s k) (hv : rootSchema v = .ok s)
    (hc : (compile h v false).1 = .ok c) (hk : OrderedMap.contains es k = true) :
    (c.validator.check (.map es identity)).Refuses := by
  obtain ⟨r, after, hrun, hdocument⟩ := compile_eq_ok hc hv
  obtain ⟨fields, hcloses, rfl | ⟨bucket, name, hbucket, hname, rfl, hfound⟩⟩ := hs.compiled hrun
  · obtain ⟨_, hspread, hexpand⟩ := hdocument _ rfl
    cases hspread
    obtain ⟨after, hafter, hcloses⟩ := (hcloses.set (by decide) (by decide)).expand hexpand
    unfold Validator.check
    rw [show c.validator.document = _ from hafter]
    exact hcloses.refuses hk
  · obtain ⟨_, hspread, hexpand⟩ := hdocument _ rfl
    cases hspread
    obtain ⟨after, hafter, hshown⟩ := NullTypes.expand_map hexpand
    obtain ⟨w, hw, hreference⟩ := hshown.found (.str "$ref") _ rfl rfl
    cases hw
    unfold Validator.check
    rw [show c.validator.document = _ from hafter]
    refine Checker.refuses_of_entry (hreference (.inr ⟨rfl, rfl⟩)) ?_
    -- The reference leads to the checked form of the definition, or to a fault.
    change (Checker.follow _ (.str (bucketPath bucket ++ name)) .full (.map es identity)).Refuses
    cases Validator.depthBound c.validator (.map es identity) with
    | zero => exact Outcome.refuses_failed
    | succ depth =>
      refine Outcome.refuses_ofStep fun target htarget => ?_
      rw [show c.validator.document = _ from hafter] at htarget
      obtain ⟨definition, rfl, hcloses⟩ :=
        hcloses.expand (hshown.target hbucket hname rfl hfound htarget)
      exact hcloses.refuses hk

/-- A closed object withholds the key of a bare forbidden child: no data with the key pass its check,
and what a guard hands on as the body of a request does not have the key. -/
theorem error_withheld {h : Heap} {v : Value} {s : Schema} {k : Atom} (hs : h.Withholds s k)
    (hv : rootSchema v = .ok s) :
    (∀ c, (compile h v false).1 = .ok c → ∀ es identity answer,
      OrderedMap.contains es k = true → c.error (.map es identity) = .ok answer →
        ∃ message, answer = some message ∧ message ≠ "") ∧
    ∀ (route : Route) (g : Guard) (r : Request) (validated : Fields) (body : RequestBody)
      (entries : Fields) (examples : Value), (Guard.make h route).1 = .ok g →
      (g.check r).1 = .ok (.accepted validated) → route.body = some body →
      body.content.entries = .ok entries →
      OrderedMap.get? entries (.str r.mediaType) = some (.mediaType v examples) →
        ∀ es identity, OrderedMap.get? validated (.str "body") = some (.map es identity) →
          OrderedMap.contains es k = false := by
  refine ⟨fun c hc es identity answer hk hanswer => ?_, ?_⟩
  · cases answer with
    | none => exact absurd hanswer (Validator.error_ne_none (check_withheld hs hv hc hk))
    | some message => exact ⟨message, rfl, Validator.error_ne_empty hanswer⟩
  · intro route g r validated body entries examples hmake hcheck hbody hentries hmedia es identity
      hdata
    obtain ⟨found, rfl, hpasses⟩ := Guard.accepted_passes hmake hcheck
    have hmem : (RequestPart.body, .map es identity) ∈ found := Guard.mem_of_named hdata
    obtain ⟨hchecks, htaken, hvalid⟩ := hpasses _ hmem
    cases hchecks with
    | part hpart => exact absurd rfl hpart
    | body hbody' hentries' hmedia' hcompile =>
      cases hbody.symm.trans hbody'
      cases hentries.symm.trans hentries'
      cases hmedia.symm.trans hmedia'
      refine Bool.eq_false_iff.mpr fun hk => ?_
      exact Validator.error_ne_none (check_withheld hs hv hcompile hk) hvalid

end Container

/-! ## Logins -/

/-- A text, a forbidden text, and a login with a name and a secret. -/
def loginHeap : Heap where
  nodes := #[{ kind := "string" }, { kind := "string", flags := [("presence", .str "forbidden")] },
    { kind := "object", children := [(.str "name", .node 0), (.str "secret", .node 1)],
      metadata := [(.str "className", .str "Login")] }]

/-- A route that takes a login. -/
def loginRoute : Route where
  path := .str "/logins"
  method := .str "post"
  summary := .str "Add"
  tags := []
  headers := .null
  query := .null
  params := .null
  body := some ⟨.ofEntries [(.str "application/json", .mediaType (.node 2) .null)], .null, .null⟩
  responses := []

/-- A login without its secret. -/
def loginRequest : Request where
  method := "POST"
  headers := [("content-type", "application/json")]
  body := .text "\x7b\"name\":\"A\"\x7d"

/-- The body that a verdict lets through, if it is a mapping. -/
def Verdict.body? : Verdict → Option (OrderedMap Atom Value)
  | .accepted validated => Checker.entriesOf? (OrderedMap.getD validated (.str "body") .null)
  | .rejected .. => none

theorem Verdict.body?_eq_some {verdict : Verdict} {es : OrderedMap Atom Value}
    (h : verdict.body? = some es) : ∃ validated identity, verdict = .accepted validated ∧
      OrderedMap.get? validated (.str "body") = some (.map es identity) := by
  cases verdict with
  | rejected => cases h
  | accepted validated =>
    refine ⟨validated, ?_⟩
    unfold body? OrderedMap.getD at h
    dsimp only at h
    cases hget : OrderedMap.get? validated (.str "body") with
    | none =>
      rw [hget] at h
      cases h
    | some data =>
      rw [hget] at h
      cases data with
      | map es' identity =>
        cases h
        exact ⟨identity, rfl, rfl⟩
      | _ => cases h

/-- A login with a secret is refused, and the one that is let through has none. -/
theorem Container.error_withheld_login :
    (∃ c message, (Container.compile loginHeap (.node 2) false).1 = .ok c ∧
      c.error (.ofFields [("secret", .str "x")]) = .ok (some message) ∧ message ≠ "") ∧
    ∃ g validated es identity, (Guard.make loginHeap loginRoute).1 = .ok g ∧
      (g.check loginRequest).1 = .ok (.accepted validated) ∧
        OrderedMap.get? validated (.str "body") = some (.map es identity) ∧
          OrderedMap.contains es (.str "secret") = false := by
  have hwithholds : loginHeap.Withholds (.node 2) (.str "secret") := by
    refine ⟨⟨rfl, rfl, rfl, ?_, _, List.mem_cons_of_mem _ List.mem_cons_self, rfl, rfl, rfl⟩, rfl,
      rfl, rfl, .inr ⟨"schemas", "Login", rfl, rfl, rfl⟩⟩
    unfold OrderedMap.Separate
    decide
  have hroot : rootSchema (.node 2) = .ok (.node 2) := rfl
  obtain ⟨hrefused, hguarded⟩ := error_withheld hwithholds hroot
  have herror : ((Container.compile loginHeap (.node 2) false).1 >>= fun c =>
      c.error (.ofFields [("secret", .str "x")])).isOk = true := by decide +kernel
  obtain ⟨answer, hanswer⟩ := exists_of_isOk herror
  obtain ⟨c, hc, hanswer⟩ := bind_eq_ok_iff.mp hanswer
  obtain ⟨message, rfl, hsome⟩ := hrefused c hc _ _ _ rfl hanswer
  have hbody : ((Guard.make loginHeap loginRoute).1 >>= fun g =>
      (g.check loginRequest).1 >>= fun verdict => pure verdict.body?.isSome).toOption =
        some true := by decide +kernel
  obtain ⟨g, hmake, hverdict⟩ := bind_eq_ok_iff.mp (eq_ok_of_toOption hbody)
  obtain ⟨verdict, hcheck, hsome'⟩ := bind_eq_ok_iff.mp hverdict
  obtain ⟨es, hes⟩ := Option.isSome_iff_exists.mp (Except.ok.inj hsome')
  obtain ⟨validated, identity, rfl, hdata⟩ := Verdict.body?_eq_some hes
  exact ⟨⟨c, message, hc, hanswer, hsome⟩, g, validated, es, identity, hmake, hcheck, hdata,
    hguarded _ g _ validated _ _ _ hmake hcheck rfl rfl rfl es identity hdata⟩

/-! ## Keys that pass -/

/-- Objects that hide a secret: an open one, one that is forbidden itself, one that is compiled as
anything, and one whose class is named like a part of another class. -/
def leakyHeap : Heap where
  nodes := #[{ kind := "string", flags := [("presence", .str "forbidden")] },
    { kind := "object", children := [(.str "secret", .node 0)], flags := [("unknown", .bool true)] },
    { kind := "object", children := [(.str "secret", .node 0)],
      flags := [("presence", .str "forbidden")] },
    { kind := "object", children := [(.str "secret", .node 0)],
      metadata := [(.str "baseType", .str "any")] },
    { kind := "object", children := [(.str "area", .node 5), (.str "secret", .node 0)],
      metadata := [(.str "className", .str "Area/properties/spot")] },
    { kind := "object", children := [(.str "spot", .node 6)],
      metadata := [(.str "className", .str "Area")] },
    { kind := "object", flags := [("unknown", .bool true)] }]

/-- A node hides a key, and data with the key pass the check all the same. -/
def Heap.Leaks (h : Heap) (id : NodeId) (key : String) : Prop :=
  h.Hides (.node id) (.str key) ∧
    ∃ c, (Container.compile h (.node id) false).1 = .ok c ∧
      c.error (.ofFields [(key, .str "x")]) = .ok none

/-- A secret passes where the object that hides it is open, forbidden, compiled as another kind, or
has a class that a reference does not lead to. -/
theorem Container.error_hidden : leakyHeap.Leaks 1 "secret" ∧ leakyHeap.Leaks 2 "secret" ∧
    leakyHeap.Leaks 3 "secret" ∧ leakyHeap.Leaks 4 "secret" := by
  have hpasses : ∀ id ∈ [1, 2, 3, 4],
      ((Container.compile leakyHeap (.node id) false).1 >>= fun c =>
        c.error (.ofFields [("secret", .str "x")])).toOption = some none := by decide +kernel
  have hpasses' : ∀ id ∈ [1, 2, 3, 4],
      ∃ c, (Container.compile leakyHeap (.node id) false).1 = .ok c ∧
        c.error (.ofFields [("secret", .str "x")]) = .ok none :=
    fun id hid => bind_eq_ok_iff.mp (eq_ok_of_toOption (hpasses id hid))
  have hsingle : ∀ s : Schema, OrderedMap.Separate [(Atom.str "secret", s)] :=
    fun _ => List.pairwise_singleton _ _
  refine ⟨⟨?_, hpasses' 1 (by decide)⟩, ⟨?_, hpasses' 2 (by decide)⟩, ⟨?_, hpasses' 3 (by decide)⟩,
    ⟨?_, hpasses' 4 (by decide)⟩⟩
  · exact ⟨rfl, rfl, rfl, hsingle _, _, List.mem_cons_self, rfl, rfl, rfl⟩
  · exact ⟨rfl, rfl, rfl, hsingle _, _, List.mem_cons_self, rfl, rfl, rfl⟩
  · exact ⟨rfl, rfl, rfl, hsingle _, _, List.mem_cons_self, rfl, rfl, rfl⟩
  · refine ⟨rfl, rfl, rfl, ?_, _, List.mem_cons_of_mem _ List.mem_cons_self, rfl, rfl, rfl⟩
    unfold OrderedMap.Separate
    decide

end WireShape
