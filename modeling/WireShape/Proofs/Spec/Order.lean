import WireShape.Proofs.Compile.Keywords
import WireShape.Proofs.Registry.Declared
import WireShape.Proofs.Registry.Discipline
import WireShape.Proofs.Spec.Rules

/-!
# Builds with schemas in another order

Schemas that can be declared in any order leave the same definitions in another order, and from then
on all steps of a build do the same. The one step that goes through definitions in their order looks
for the names of parameters, and the definitions that are in another order have none.

* `Source.Unordered`: sources whose schemas can be declared in any order.
* `Spec.parameterNames_reordered`: the names of parameters do not depend on the order.
* `Spec.Building.reordered`: builds for two orders make the same of the definitions that they have.
-/

namespace WireShape

open Value (Fields)

/-- A source whose schemas can be declared in any order. The classes that stand among its parameters
have names that no declared parameter has: such a parameter would take the place of the class, and of
two parameters with one key the one counts that stands later. -/
structure Source.Unordered (h : Heap) (source : Source) (es : Fields) : Prop where
  schemas : h.Unordered es
  parameters : ∀ ps identity, source.parameters = some (.map ps identity) → ∀ t n, h.Under es t →
    (h.view t).class? = .ok (some (.str "parameters", n)) → ∀ p ∈ ps, p.1 ≠ n

/-- No declared parameter has the name of a class among the parameters. -/
theorem Source.Unordered.parameter_ne {h : Heap} {source : Source} {es ps : Fields}
    (hsource : source.Unordered h es) {identity : Option Nat}
    (hparameters : source.parameters = some (.map ps identity)) {p : Atom × Value} (hp : p ∈ ps)
    {n : Atom} (hn : h.DeclaresName es (.str "parameters") n) : (p.1 == n) = false := by
  obtain ⟨d, hd⟩ := hn
  obtain ⟨t, ht, hdefines⟩ := hd.exists_defines (by decide)
  have hne := hsource.parameters ps identity hparameters t n ht hdefines.class? p hp
  exact Bool.eq_false_iff.mpr fun heq =>
    hne (Atom.eq_of_isText (BEq.symm heq) (hsource.schemas.texts hd).2).symm

/-- The definition of a class has no name of its own. -/
theorem Heap.Defines.nameless {h : Heap} {s : Schema} {b n : Atom} {d : Value}
    (hd : h.Defines s b n d) (hliteral : (h.view s).literal.isNull = true) :
    d.field? "name" = none := by
  cases hd with
  | literal _ h' => exact absurd ((Node.not_literal hliteral).symm.trans h') Bool.false_ne_true
  | compiled _ _ _ _ _ _ _ hfields =>
    exact Node.nameless_of_assemble (Node.literal_falsy hliteral) hfields

namespace Registry

variable {h : Heap} {reg after : Registry} {T : Atom → Prop} {b n : Atom} {d : Value} {i : Unit}

/-! ## Definitions that are no parameters -/

/-- Steps that write over no definition. -/
def retention : Discipline where
  Inv _ := True
  Grows := Retains
  refl _ := .refl
  trans := .trans

theorem runWalk_retains {walk : Walk Compiled} :
    retention.Keeps (fun _ => True) (runWalk h walk) fun _ _ => True := by
  intro reg r after hrun _ _
  obtain ⟨_, hlogged, hmerge⟩ := runs_runWalk hrun
  exact ⟨trivial, (Retains.of_components hlogged.components).trans (merge_retains hmerge), trivial⟩

theorem addLogFrom_retains {level : LogLevel} {message : Except Fault String} :
    retention.Keeps (fun _ => True) (addLogFrom level message) fun _ _ => True :=
  fun _ _ _ hrun _ _ => ⟨trivial, .of_components (runs_addLogFrom hrun).components, trivial⟩

/-- To define a parameter writes over nothing. -/
theorem buildParameter_retains {v headerStart : Value} :
    retention.Keeps (fun _ => True) (buildParameter h v headerStart) fun _ _ => True :=
  Discipline.Keeps.compositional.buildParameter runWalk_retains fun _ _ => addLogFrom_retains

/-- Under certain names there are definitions that are no parameters. -/
def Nameless (T : Atom → Prop) (reg : Registry) : Prop :=
  ∀ n, T n → ∃ d, reg.definition? (.str "parameters") n = some d ∧ d.field? "name" = none

theorem Nameless.retained (hreg : reg.Nameless T) (hkept : reg.Retains after) : after.Nameless T := by
  intro n hn
  obtain ⟨d, hfound, hd⟩ := hreg n hn
  exact ⟨d, hkept _ _ d hfound, hd⟩

/-- A parameter under another name leaves them. -/
theorem Nameless.registerParameter (hreg : reg.Nameless T) {name : Atom} {parameter : Value}
    (hname : ∀ n, T n → (name == n) = false)
    (hrun : Runs (registerParameter name parameter) reg i after) : after.Nameless T := by
  intro n hn
  obtain ⟨d, hfound, hd⟩ := hreg n hn
  refine ⟨d, definition?_define_of_ne (congrArg components (runs_define_iff.mp hrun)) ?_ hfound, hd⟩
  rw [hname n hn, Bool.and_false]

/-- The classes among the parameters of declared schemas are no parameters. -/
theorem Gathers.nameless {es : Fields} (hes : h.Unordered es) (hreg : Gathers h es reg)
    (hall : ∀ e ∈ es, HasDeclared h reg e) :
    reg.Nameless (h.DeclaresName es (.str "parameters")) := by
  rintro n ⟨d, hd⟩
  have hfound := (hreg.find?_iff hes hall).mpr hd
  obtain ⟨t, ht, hd⟩ := hd.exists_defines (by decide)
  exact ⟨d, definition?_eq_some_iff.mpr ⟨hfound, hd.ne_null⟩, hd.nameless (hes.uniform.plain ht)⟩

end Registry

namespace Spec

variable {setup : Setup} {reg reg' after : Registry} {T : Atom → Atom → Prop} {i : Unit}

/-- Declared parameters leave the definitions under other names. -/
theorem declareParameters_nameless {T : Atom → Prop} {v : Value}
    (hrun : Runs (declareParameters setup v) reg i after) (hreg : reg.Nameless T)
    (hnames : ∀ ps identity, v = .map ps identity → ∀ p ∈ ps, ∀ n, T n → (p.1 == n) = false) :
    after.Nameless T := by
  obtain ⟨ps, hps, hloop⟩ := runs_entries hrun
  refine runs_forM_preserves (I := Registry.Nameless T) hloop ?_ hreg
  intro p hp reg i after hstep hreg
  have hname : ∀ n, T n → (p.1 == n) = false := by
    rcases hps with ⟨rfl, _⟩ | ⟨identity, hv⟩
    · cases hp
    · exact hnames ps identity hv p hp
  obtain ⟨built, mid, hbuild, hlast⟩ := runs_bind_iff.mp hstep
  obtain ⟨_, hkept, _⟩ := Registry.buildParameter_retains reg built mid hbuild trivial trivial
  have hmid := hreg.retained hkept
  cases built with
  | none =>
    obtain ⟨_, rfl⟩ := runs_pure_iff.mp hlast
    exact hmid
  | some parameter => exact hmid.registerParameter hname hlast

/-- Definitions without name are passed over in the search for the names of parameters. -/
theorem parameterNames_append {first later : OrderedMap Atom Value}
    (hfirst : ∀ e ∈ first, e.2.field? "name" = none) (hreg : reg.parameters = first ++ later)
    (hreg' : reg'.parameters = later) : parameterNames reg = parameterNames reg' := by
  unfold parameterNames
  rw [hreg, hreg']
  clear hreg hreg'
  induction first with
  | nil => rfl
  | cons e first ih =>
    obtain ⟨name, d⟩ := e
    have hd : d.field? "name" = none := hfirst _ List.mem_cons_self
    rw [List.cons_append, List.foldlM_cons]
    dsimp only
    rw [hd]
    exact ih fun e' he' => hfirst e' (List.mem_cons_of_mem _ he')

/-- The names of parameters do not depend on the order of definitions that are none. -/
theorem parameterNames_reordered (hregs : reg.Reordered T reg')
    (htexts : ∀ b n, T b n → b.isText = true ∧ n.isText = true)
    (hreg : reg.Nameless (T (.str "parameters"))) : parameterNames reg' = parameterNames reg := by
  obtain ⟨first, first', later, hfirst, hfirst', hperm, hT⟩ :=
    hregs.components.bucket (b := .str "parameters") hregs.apart
  have hnameless : ∀ e ∈ first, e.2.field? "name" = none := by
    intro e he
    obtain ⟨b, hb, hn⟩ := hT e he
    obtain ⟨hbtext, hntext⟩ := htexts b e.1 hn
    obtain rfl := Atom.eq_of_isText hb hbtext
    obtain ⟨d, hfound, hd⟩ := hreg e.1 hn
    have hmem : e ∈ reg.components.bucket (.str "parameters") :=
      hfirst ▸ List.mem_append_left later he
    have hget := hregs.apart.bucket.get? hmem (Atom.beq_self hntext)
    obtain ⟨hfound, _⟩ := Registry.definition?_eq_some_iff.mp hfound
    cases hget.symm.trans hfound
    exact hd
  let rest : Registry := { components := [(.str "parameters", later)] }
  have hrest : rest.parameters = later := rfl
  rw [parameterNames_append hnameless hfirst hrest]
  exact parameterNames_append (fun e he => hnameless e (hperm.mem_iff.mpr he)) hfirst' hrest

/-! ## Two builds -/

section Builds

variable {source : Source} {es fs : Fields} {identity : Option Nat} {fields fields' : Fields}
  {after' : Registry}

/-- The schemas of a mapping are declared one after the other. -/
theorem runs_declareSchemas
    (hrun : Runs (declareSchemas setup (.map es identity)) reg i after) :
    Runs (es.forM fun e => do discard <| Registry.declare setup.heap e.1 e.2) reg i after := by
  obtain ⟨entries, hentries, hloop⟩ := runs_entries hrun
  rcases hentries with ⟨rfl, hempty⟩ | ⟨_, heq⟩
  · obtain rfl : es = [] := by
      rw [Value.truthy, Bool.not_eq_false', List.isEmpty_iff] at hempty
      exact hempty
    exact hloop
  · cases heq
    exact hloop

/-- Declared in two orders, schemas leave the same definitions in two orders; those among the
parameters are no parameters. -/
theorem declareSchemas_reordered (hes : setup.heap.Unordered es) (hperm : es.Perm fs)
    {other : Option Nat} {j : Unit}
    (hrun : Runs (declareSchemas setup (.map es identity)) {} i reg)
    (hrun' : Runs (declareSchemas setup (.map fs other)) {} j reg') :
    reg.Reordered (setup.heap.DeclaresName es) reg' ∧
      reg.Nameless (setup.heap.DeclaresName es (.str "parameters")) := by
  obtain ⟨hreg, hall⟩ := Registry.declared_gathers hes (runs_declareSchemas hrun)
  obtain ⟨hreg', hall'⟩ := Registry.declared_gathers (hes.perm hperm) (runs_declareSchemas hrun')
  exact ⟨hreg.reordered hes hall hperm hreg' hall', hreg.nameless hes hall⟩

/-- Builds that declare the same schemas in two orders make the same of the same definitions, which
they have in two orders. -/
theorem Building.reordered {permuted : Source} (hsource : source.Unordered setup.heap es)
    (hperm : es.Perm fs) (hschemas : source.schemas = some (.map es identity))
    {other : Option Nat} (hpermuted : permuted = { source with schemas := some (.map fs other) })
    (hbuild : Building setup source {} fields after)
    (hbuild' : Building setup permuted {} fields' after') :
    ∃ tags paths, ∃ last last' : Registry,
      last.Reordered (setup.heap.DeclaresName es) last' ∧
        fields = documentFields tags paths last.components ∧
        fields' = documentFields tags paths last'.components := by
  subst hpermuted
  have hes := hsource.schemas
  have hrules := Registry.lockstep_rules (h := setup.heap) (T := setup.heap.DeclaresName es)
    fun _ _ _ => hes.names_congr
  cases hbuild with
  | @run _ parameters _ _ _ _ _ _ _ _ last _ hgiven hparameters hdeclare hdeclare' hnames hpaths
      hoperations _ htags =>
  cases hbuild' with
  | @run _ _ _ _ _ _ _ _ _ _ last' _ hgiven' hparameters' hdeclared hdeclared' hnames' hpaths'
      hoperations' _ htags' =>
  -- What the sources have besides their schemas is the same.
  cases (Source.getSchemas_eq_ok_iff.mp hgiven).symm.trans hschemas
  cases Source.getSchemas_eq_ok_iff.mp hgiven'
  cases hparameters.symm.trans hparameters'
  cases hpaths.symm.trans hpaths'
  cases htags.symm.trans htags'
  obtain ⟨hregs, hnameless⟩ := declareSchemas_reordered hes hperm hdeclare hdeclared
  obtain ⟨-, hmid⟩ := hrules.declareParameters.runs_both hregs hdeclare' hdeclared'
  have hothers : ∀ ps identity, parameters = .map ps identity → ∀ p ∈ ps, ∀ n,
      setup.heap.DeclaresName es (.str "parameters") n → (p.1 == n) = false := by
    rintro ps identity rfl p hp n hn
    exact hsource.parameter_ne (Source.getParameters_eq_ok_iff.mp hparameters) hp hn
  rw [parameterNames_reordered hmid (fun _ _ => hes.text_names)
    (declareParameters_nameless hdeclare' hnameless hothers)] at hnames'
  cases hnames.symm.trans hnames'
  obtain ⟨rfl, hlast⟩ := (hrules.routeRules.pathsOf fun _ => Registry.lockstep_addLog).runs_both hmid
    hoperations hoperations'
  exact ⟨_, _, last, last', hlast, rfl, rfl⟩

end Builds

end Spec

end WireShape
