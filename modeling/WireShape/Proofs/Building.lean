import WireShape.Node.Builder
import WireShape.Proofs.Equality

/-!
# What building keeps

A node is made by a constructor and changed by any number of methods, and each method writes to the
rules, to the children or to the lists of values in one of four ways, if at all. Whatever the chain,
no two rules have one name and the rule added last is the last one; no two children have one key,
each stands where its key was given first and is the schema of the value given last; and no allowed
value equals a denied one. What was added and given on the way is read off the calls alone.

* `Follows`: children that follow what was given for their keys, one write after the other.
* `Node.Method.effect`, `Node.Effect.Turns`: what a method writes, and what becomes of the node.
* `Node.Method.turns`: every method that succeeds has its effect and no other.
* `Node.Content.Tidy`: the invariant; `Node.Content.Tidy.step`: every effect keeps it.
* `Node.build_tidy`: what holds of every node that is built.
* `Node.object_eq_view`: a plain mapping stands for a node that is built.
-/

namespace WireShape

/-! ## Keys in the order in which they come first -/

section Keys

variable {κ : Type}

theorem eraseDupsBy_loop_append {r : κ → κ → Bool} {ks js seen : List κ} :
    List.eraseDupsBy.loop r (ks ++ js) seen =
      List.eraseDupsBy.loop r js (List.eraseDupsBy.loop r ks seen).reverse := by
  induction ks generalizing seen with
  | nil => rw [List.nil_append, List.eraseDupsBy.loop, List.reverse_reverse]
  | cons k ks ih =>
    rw [List.cons_append, List.eraseDupsBy.loop, List.eraseDupsBy.loop]
    split <;> exact ih

/-- A key that was there before is left out, and any other goes to the end. -/
theorem eraseDups_concat [BEq κ] {ks : List κ} {k : κ} :
    (ks ++ [k]).eraseDups =
      if ks.eraseDups.any (k == ·) then ks.eraseDups else ks.eraseDups ++ [k] := by
  unfold List.eraseDups List.eraseDupsBy
  rw [eraseDupsBy_loop_append, List.eraseDupsBy.loop, List.any_reverse]
  split
  · rename_i hseen
    rw [hseen, List.eraseDupsBy.loop, List.reverse_reverse, if_pos rfl]
  · rename_i hseen
    rw [hseen, List.eraseDupsBy.loop, List.reverse_cons, List.reverse_reverse,
      if_neg Bool.false_ne_true]

end Keys

/-! ## Children -/

/-- Under this key, in whatever form, the value was given, and nothing was given under it later. -/
def LastGiven (given : List (Atom × Value)) (k : Atom) (v : Value) : Prop :=
  ∃ earlier j later, given = earlier ++ (j, v) :: later ∧ j.alike k = true ∧
    ∀ e ∈ later, (e.1 == k) = false

/-- Children that follow what was given: each key once, where it was given first, with the schema of
the value that was given last. -/
structure Follows (given : List (Atom × Value)) (children : List (Atom × Schema)) : Prop where
  separate : OrderedMap.Separate children
  keys : OrderedMap.keys children = (given.map Prod.fst).eraseDups
  last : ∀ e ∈ children, ∃ v, LastGiven given e.1 v ∧ Schema.ofValue v = .ok e.2

namespace Follows

variable {given es : List (Atom × Value)} {children cs : List (Atom × Schema)}

theorem nil : Follows [] [] := ⟨.nil, rfl, nofun⟩

theorem insert {k : Atom} {v : Value} {s : Schema} (h : Follows given children)
    (hs : Schema.ofValue v = .ok s) :
    Follows (given ++ [(k, v)]) (OrderedMap.insert children k s) where
  separate := h.separate.insert
  keys := by
    rw [OrderedMap.keys_insert_eq, h.keys, List.map_append, List.map_singleton, eraseDups_concat]
  last e he := by
    rcases OrderedMap.mem_insert_of_separate h.separate he with ⟨hold, hne⟩ | ⟨hvalue, hkey⟩
    · obtain ⟨w, ⟨earlier, j, later, hgiven, hj, hlater⟩, hw⟩ := h.last e hold
      refine ⟨w, ⟨earlier, j, later ++ [(k, v)], ?_, hj, fun f hf => ?_⟩, hw⟩
      · rw [hgiven, List.append_assoc, List.cons_append]
      · rcases List.mem_append.mp hf with hf | hf
        · exact hlater f hf
        · rw [List.mem_singleton.mp hf, BEq.comm]
          exact hne
    · rw [hvalue]
      exact ⟨v, ⟨given, k, [], rfl, Atom.alike_symm (Atom.alike_iff.mpr hkey), nofun⟩, hs⟩

theorem update (h : Follows given children) (hcs : Schema.ofEntries es = .ok cs) :
    Follows (given ++ es) (OrderedMap.update children cs) := by
  unfold OrderedMap.update
  induction es generalizing given children cs with
  | nil =>
    cases hcs
    rwa [List.append_nil]
  | cons e es ih =>
    obtain ⟨s, hs, htail⟩ := bind_eq_ok_iff.mp hcs
    obtain ⟨rest, hrest, heq⟩ := bind_eq_ok_iff.mp htail
    cases heq
    have hnext := ih (h.insert (k := e.1) hs) hrest
    rwa [List.append_assoc] at hnext

end Follows

namespace Node

/-! ## What a method writes -/

/-- What is written to the rules, the children and the lists of values. -/
inductive Effect
  | rule (r : Rule)
  | children (entries : List (Atom × Value))
  | allow (vs : List Value)
  | deny (vs : List Value)
  | nothing

/-- The rule that is added. -/
def Effect.rules : Effect → List Rule
  | rule r => [r]
  | _ => []

/-- The children that are given. -/
def Effect.entries : Effect → List (Atom × Value)
  | children entries => entries
  | _ => []

/-- The children given by a mapping and by name. -/
def givenEntries (mapping : Value) (named : List (String × Value)) : List (Atom × Value) :=
  match mapping with
  | .map es _ => OrderedMap.update es (namedEntries named)
  | _ => OrderedMap.update [] (namedEntries named)

def Constructor.effect : Constructor → Effect
  | object mapping named => .children (givenEntries mapping named)
  | _ => .nothing

def Method.effect : Method → Effect
  | min limit => .rule (.min limit)
  | max limit => .rule (.max limit)
  | length limit => .rule (.length limit)
  | integer => .rule .integer
  | precision limit => .rule (.precision limit)
  | positive => .rule (.sign .positive)
  | negative => .rule (.sign .negative)
  | alphanum => .rule .alphanum
  | token => .rule .token
  | email => .rule .email
  | isoDate => .rule .isoDate
  | guid => .rule .guid
  | pattern regex => .rule (.pattern regex)
  | lowercase => .rule (.case .lower)
  | uppercase => .rule (.case .upper)
  | unique => .rule .unique
  | keys mapping named => .children (givenEntries mapping named)
  | allow vs => .allow vs
  | valid vs => .allow vs
  | invalid vs => .deny vs
  | _ => .nothing

/-- The rules that calls add, in order. -/
def addedRules (methods : List Method) : List Rule := methods.flatMap fun m => m.effect.rules

/-- The children that calls give, in order. -/
def givenChildren (start : Constructor) (methods : List Method) : List (Atom × Value) :=
  start.effect.entries ++ methods.flatMap fun m => m.effect.entries

/-- What methods write to. -/
structure Content where
  rules : List Rule := []
  children : List (Atom × Schema) := []
  valids : List Value := []
  invalids : List Value := []

def content (n : Node) : Content := ⟨n.rules, n.children, n.valids, n.invalids⟩

/-- What becomes of the content of a node. -/
inductive Effect.Turns : Effect → Content → Content → Prop
  | rule {c : Content} {r : Rule} : Turns (.rule r) c
      { c with rules := c.rules.filter (fun q => q.name != r.name) ++ [r] }
  | children {c : Content} {es : List (Atom × Value)} {cs : List (Atom × Schema)}
      (hcs : Schema.ofEntries es = .ok cs) : Turns (.children es) c
      { c with children := (OrderedMap.ofEntries c.children).update cs }
  | allow {c : Content} {vs : List Value} : Turns (.allow vs) c
      { c with valids := c.valids ++ vs, invalids := c.invalids.filter fun v => !v.isIn vs }
  | deny {c : Content} {vs : List Value} : Turns (.deny vs) c
      { c with invalids := c.invalids ++ vs, valids := c.valids.filter fun v => !v.isIn vs }
  | nothing {c : Content} : Turns .nothing c c

section Calls

variable {describe : Describe} {n n' : Node}

theorem turns_of_ruleFor {method : String} {kinds : List String} {r : Rule}
    (h : n.ruleFor method kinds r = .ok n') : (Effect.rule r).Turns n.content n'.content := by
  obtain ⟨_, _, heq⟩ := bind_eq_ok_iff.mp h
  cases heq
  exact .rule

theorem turns_of_keys {mapping : Value} {named : List (String × Value)}
    (h : n.keys mapping named = .ok n') :
    (Effect.children (givenEntries mapping named)).Turns n.content n'.content := by
  obtain ⟨_, _, h⟩ := bind_eq_ok_iff.mp h
  have hgiven : (Schema.ofEntries (givenEntries mapping named) >>= fun cs => Except.ok
      { n with children := (OrderedMap.ofEntries n.children).update cs }) = .ok n' := by
    -- What is no mapping is refused, or empty and passed over.
    cases mapping with
    | map es _ => cases es <;> exact h
    | _ =>
      split at h
      · cases h
      · exact h
  obtain ⟨cs, hcs, heq⟩ := bind_eq_ok_iff.mp hgiven
  cases heq
  exact .children hcs

theorem turns_of_addMeta {mapping : Value} {named : List (String × Value)}
    (h : n.addMeta mapping named = .ok n') : Effect.nothing.Turns n.content n'.content := by
  unfold addMeta at h
  split at h
  · obtain ⟨_, _, heq⟩ := bind_eq_ok_iff.mp h
    cases heq
    exact .nothing
  · cases h
    exact .nothing

theorem turns_of_matchMode {mode : Value} (h : n.matchMode describe mode = .ok n') :
    Effect.nothing.Turns n.content n'.content := by
  obtain ⟨_, _, h⟩ := bind_eq_ok_iff.mp h
  split at h
  · cases h
    exact .nothing
  · obtain ⟨_, _, heq⟩ := bind_eq_ok_iff.mp h
    cases heq

/-- A method that succeeds has its effect on the content and no other. -/
theorem Method.turns {m : Method} (h : m.apply describe n = .ok n') :
    m.effect.Turns n.content n'.content := by
  cases m with
  | min | max | length | integer | precision | positive | negative | alphanum | token | email
  | isoDate | guid | pattern | lowercase | uppercase | unique => exact turns_of_ruleFor h
  | keys => exact turns_of_keys h
  | allow | valid =>
    cases h
    exact .allow
  | invalid =>
    cases h
    exact .deny
  | required | optional | forbidden | label | description | default | sample =>
    cases h
    exact .nothing
  | addMeta => exact turns_of_addMeta h
  | matchMode => exact turns_of_matchMode h
  | encoding | format | unknown | when =>
    obtain ⟨_, _, heq⟩ := bind_eq_ok_iff.mp h
    cases heq
    exact .nothing
  | prefs | patternKeys | itemsOf | tryOf | conditional =>
    obtain ⟨_, _, h⟩ := bind_eq_ok_iff.mp h
    obtain ⟨_, _, heq⟩ := bind_eq_ok_iff.mp h
    cases heq
    exact .nothing

/-- A constructor starts from nothing. -/
theorem Constructor.turns {start : Constructor} (h : start.make = .ok n) :
    start.effect.Turns {} n.content := by
  cases start with
  | object => exact turns_of_keys h
  | array | alternatives =>
    obtain ⟨_, _, h⟩ := bind_eq_ok_iff.mp h
    obtain ⟨_, _, heq⟩ := bind_eq_ok_iff.mp h
    cases heq
    exact .nothing
  | _ =>
    cases h
    exact .nothing

end Calls

/-! ## The invariant -/

/-- What holds of the content of a node, given the rules added and the children given so far. -/
structure Content.Tidy (c : Content) (added : List Rule) (given : List (Atom × Value)) : Prop where
  names : (c.rules.map Rule.name).Nodup
  found : ∀ name, c.rules.find? (fun r => r.name == name) =
    added.reverse.find? fun r => r.name == name
  lastRule : c.rules.getLast? = added.getLast?
  children : Follows given c.children
  apart : ∀ v ∈ c.valids, ∀ w ∈ c.invalids, v.same w = false ∨ w.same v = false

/-- Lists stay apart when values are put to the one and what equals them is taken out of the other.
Each value is compared with those given later only, so one direction is all that is known. -/
theorem apart_append {xs ys vs : List Value}
    (h : ∀ v ∈ xs, ∀ w ∈ ys, v.same w = false ∨ w.same v = false) :
    ∀ v ∈ xs ++ vs, ∀ w ∈ ys.filter fun w => !w.isIn vs, v.same w = false ∨ w.same v = false := by
  intro v hv w hw
  obtain ⟨hold, hnot⟩ := List.mem_filter.mp hw
  rcases List.mem_append.mp hv with hmem | hnew
  · exact h v hmem w hold
  · rw [Bool.not_eq_true', Value.isIn, List.any_eq_false] at hnot
    exact .inl (Bool.eq_false_iff.mpr (hnot v hnew))

/-- An added rule is found under its name, and the other rules are found as before. -/
theorem find?_addRule {rules : List Rule} {r : Rule} {name : String} :
    (rules.filter (fun q => q.name != r.name) ++ [r]).find? (fun q => q.name == name) =
      if r.name == name then some r else rules.find? fun q => q.name == name := by
  induction rules with
  | nil =>
    rw [List.filter_nil, List.nil_append, List.find?_cons]
    cases r.name == name <;> rfl
  | cons q rules ih =>
    by_cases hq : q.name = r.name
    · rw [List.filter_cons_of_neg (by simpa using hq), ih, List.find?_cons, hq]
      cases r.name == name <;> rfl
    · rw [List.filter_cons_of_pos (by simpa using hq), List.cons_append, List.find?_cons, ih,
        List.find?_cons]
      cases hname : q.name == name with
      | false => rfl
      | true =>
        have hne : (r.name == name) = false := by
          rw [← beq_iff_eq.mp hname, beq_eq_false_iff_ne]
          exact Ne.symm hq
        rw [hne]
        rfl

namespace Content.Tidy

variable {c c' : Content} {added : List Rule} {given : List (Atom × Value)} {effect : Effect}

theorem start : Content.Tidy {} [] [] := ⟨.nil, fun _ => rfl, rfl, .nil, nofun⟩

/-- An added rule takes the place of the one of its name, at the end. -/
theorem addRule {r : Rule} (h : c.Tidy added given) :
    Tidy { c with rules := c.rules.filter (fun q => q.name != r.name) ++ [r] }
      (added ++ [r]) given where
  names := by
    rw [List.map_append, List.map_singleton, List.nodup_append]
    refine ⟨h.names.sublist (List.filter_sublist.map _), List.pairwise_singleton _ _, ?_⟩
    intro name hname last hlast
    obtain ⟨q, hq, rfl⟩ := List.mem_map.mp hname
    rw [List.mem_singleton.mp hlast]
    exact bne_iff_ne.mp (List.mem_filter.mp hq).2
  found name := by
    rw [find?_addRule, h.found name, List.reverse_concat, List.find?_cons]
    cases r.name == name <;> rfl
  lastRule := by rw [List.getLast?_concat, List.getLast?_concat]
  children := h.children
  apart := h.apart

theorem addChildren {es : List (Atom × Value)} {cs : List (Atom × Schema)}
    (h : c.Tidy added given) (hcs : Schema.ofEntries es = .ok cs) :
    Tidy { c with children := (OrderedMap.ofEntries c.children).update cs }
      added (given ++ es) where
  names := h.names
  found := h.found
  lastRule := h.lastRule
  children := by
    -- Written anew, children with different keys are what they were.
    have hsame : OrderedMap.ofEntries c.children = c.children :=
      OrderedMap.update_eq_append h.children.separate
    change Follows _ ((OrderedMap.ofEntries c.children).update cs)
    rw [hsame]
    exact h.children.update hcs
  apart := h.apart

/-- Values that are allowed are denied no longer. -/
theorem allow {vs : List Value} (h : c.Tidy added given) :
    Tidy { c with
      valids := c.valids ++ vs
      invalids := c.invalids.filter fun v => !v.isIn vs } added given where
  names := h.names
  found := h.found
  lastRule := h.lastRule
  children := h.children
  apart := apart_append h.apart

/-- Values that are denied are allowed no longer. -/
theorem deny {vs : List Value} (h : c.Tidy added given) :
    Tidy { c with
      invalids := c.invalids ++ vs
      valids := c.valids.filter fun v => !v.isIn vs } added given where
  names := h.names
  found := h.found
  lastRule := h.lastRule
  children := h.children
  apart v hv w hw :=
    (apart_append (fun w hw v hv => (h.apart v hv w hw).symm) w hw v hv).symm

/-- An effect keeps the invariant, with what it adds and gives put to the end. -/
theorem step (h : c.Tidy added given) (hturns : effect.Turns c c') :
    c'.Tidy (added ++ effect.rules) (given ++ effect.entries) := by
  cases hturns <;> simp only [Effect.rules, Effect.entries, List.append_nil]
  case rule => exact h.addRule
  case children hcs => exact h.addChildren hcs
  case allow => exact h.allow
  case deny => exact h.deny
  case nothing => exact h

/-- So does a chain of methods. -/
theorem chain {describe : Describe} {methods : List Method} {n n' : Node}
    (h : n.content.Tidy added given)
    (hrun : methods.foldlM (fun n m => m.apply describe n) n = .ok n') :
    n'.content.Tidy (added ++ addedRules methods)
      (given ++ methods.flatMap fun m => m.effect.entries) := by
  unfold addedRules
  induction methods generalizing n added given with
  | nil =>
    cases hrun
    rwa [List.flatMap_nil, List.flatMap_nil, List.append_nil, List.append_nil]
  | cons m methods ih =>
    obtain ⟨next, hnext, hrest⟩ := bind_eq_ok_iff.mp hrun
    have htail := ih (h.step (Method.turns hnext)) hrest
    simpa only [List.flatMap_cons, List.append_assoc] using htail

end Content.Tidy

theorem tidy_of_build {describe : Describe} {start : Constructor} {methods : List Method} {n : Node}
    (h : build describe start methods = .ok n) :
    n.content.Tidy (addedRules methods) (givenChildren start methods) := by
  obtain ⟨first, hfirst, hrest⟩ := bind_eq_ok_iff.mp h
  have hstart := Content.Tidy.start.step (Constructor.turns hfirst)
  have hrules : start.effect.rules = [] := by cases start <;> rfl
  rw [hrules] at hstart
  exact hstart.chain hrest

/-- **What building keeps.** In a node made by a constructor and any methods, the rules have
different names, the rule of a name is the last one added under it and the rule added last is the
last one; the children have different keys, in the order in which these were given first, and each
is the schema of the value given last for its key; and no allowed value is, or equals, a denied one,
where the mappings in them have each key once. -/
theorem build_tidy {describe : Describe} {start : Constructor} {methods : List Method} {n : Node}
    (h : build describe start methods = .ok n) :
    (n.rules.map Rule.name).Nodup ∧
    (∀ name, n.rule? name = (addedRules methods).reverse.find? fun r => r.name == name) ∧
    n.rules.getLast? = (addedRules methods).getLast? ∧
    OrderedMap.Separate n.children ∧
    OrderedMap.keys n.children = ((givenChildren start methods).map Prod.fst).eraseDups ∧
    (∀ e ∈ n.children, ∃ v, LastGiven (givenChildren start methods) e.1 v ∧
      Schema.ofValue v = .ok e.2) ∧
    ∀ v ∈ n.valids, ∀ w ∈ n.invalids, v.Proper → w.Proper →
      v.same w = false ∧ w.same v = false := by
  have htidy := tidy_of_build h
  refine ⟨htidy.names, htidy.found, htidy.lastRule, htidy.children.separate, htidy.children.keys,
    htidy.children.last, fun v hv w hw hproper hproper' => ?_⟩
  have hcomm := hproper.same_comm hproper'
  rcases htidy.apart v hv w hw with hne | hne
  · exact ⟨hne, hcomm ▸ hne⟩
  · exact ⟨hcomm.trans hne, hne⟩

/-- The calls that describe the number of a locker. -/
def lockerNumberCalls : List Method :=
  [.min (.int 1), .integer, .max (.int 9), .min (.int 2), .allow [.null, .int 1],
    .invalid [.bool true, .int 2], .allow [.float (.finite false (2 ^ 52) (-51))]]

/-- The number of a locker: the limit set last counts, `true` has displaced `1`, and `2.0` has
displaced `2`. -/
def lockerNumber : Node where
  kind := "number"
  rules := [.integer, .max (.int 9), .min (.int 2)]
  valids := [.null, .float (.finite false (2 ^ 52) (-51))]
  invalids := [.bool true]

/-- A locker, whose parts are known by a text and by a number. -/
def lockerStart : Constructor :=
  .object (.ofEntries [(.str "code", .node 0), (.int 1, .node 1)]) []

/-- The key `true` is the key `1`. -/
def lockerCalls : List Method :=
  [.required, .keys (.ofEntries [(.bool true, .node 2)]) [("code", .node 3)]]

def locker : Node where
  kind := "object"
  flags := [("presence", .str "required")]
  children := [(.str "code", .node 3), (.int 1, .node 2)]

/-- The number of a locker and the locker are built, and tidy. -/
theorem build_tidy_locker :
    (build (fun _ => .ok "") .number lockerNumberCalls = .ok lockerNumber ∧
      (lockerNumber.rules.map Rule.name).Nodup ∧
      lockerNumber.rule? "min" = some (.min (.int 2)) ∧
      lockerNumber.rules.getLast? = some (.min (.int 2)) ∧
      ∀ v ∈ lockerNumber.valids, ∀ w ∈ lockerNumber.invalids,
        v.same w = false ∧ w.same v = false) ∧
    build (fun _ => .ok "") lockerStart lockerCalls = .ok locker ∧
      givenChildren lockerStart lockerCalls =
        [(.str "code", .node 0), (.int 1, .node 1), (.bool true, .node 2), (.str "code", .node 3)] ∧
      OrderedMap.Separate locker.children ∧
      OrderedMap.keys locker.children = [.str "code", .int 1] ∧
      ∀ e ∈ locker.children, ∃ v, LastGiven (givenChildren lockerStart lockerCalls) e.1 v ∧
        Schema.ofValue v = .ok e.2 := by
  have hnumber : build (fun _ => .ok "") .number lockerNumberCalls = .ok lockerNumber := rfl
  have hlocker : build (fun _ => .ok "") lockerStart lockerCalls = .ok locker := rfl
  obtain ⟨hnames, hfound, hlast, -, -, -, hapart⟩ := build_tidy hnumber
  obtain ⟨-, -, -, hseparate, hkeys, hchildren, -⟩ := build_tidy hlocker
  refine ⟨⟨hnumber, hnames, hfound "min", hlast, fun v hv w hw => ?_⟩, hlocker, rfl, hseparate,
    hkeys, hchildren⟩
  -- All of these values are atoms.
  have hproper : v.Proper := by
    rcases List.mem_pair.mp hv with rfl | rfl <;> exact .atom
  have hproper' : w.Proper := by
    rw [List.mem_singleton.mp hw]
    exact .atom
  exact hapart v hv w hw hproper hproper'

/-! ## Plain mappings -/

theorem keys_ofEntries {es : List (Atom × Value)} {cs : List (Atom × Schema)}
    (h : Schema.ofEntries es = .ok cs) : List.Forall₂ (fun e c => e.1 = c.1) es cs := by
  induction es generalizing cs with
  | nil =>
    cases h
    exact .nil
  | cons e es ih =>
    obtain ⟨s, _, htail⟩ := bind_eq_ok_iff.mp h
    obtain ⟨rest, hrest, heq⟩ := bind_eq_ok_iff.mp htail
    cases heq
    exact .cons rfl (ih hrest)

/-- A plain mapping stands for the node that the constructor makes of it. -/
theorem object_eq_view {h : Heap} {es : List (Atom × Value)} {identity : Option Nat}
    (hes : OrderedMap.Separate es) :
    Node.object (.map es identity) [] = h.view <$> Schema.ofValue (.map es identity) := by
  have hobject : Node.object (.map es identity) [] = (Schema.ofEntries es >>= fun cs => .ok
      { ofKind "object" with children := (OrderedMap.ofEntries []).update cs }) := by
    cases es <;> rfl
  rw [hobject, Schema.ofValue]
  cases hcs : Schema.ofEntries es with
  | error fault => rfl
  | ok cs =>
    -- The schemas have the keys of the mapping, so none is written over another.
    have hseparate : OrderedMap.Separate cs := hes.of_keys (keys_ofEntries hcs)
    have hupdate : OrderedMap.update [] cs = cs := OrderedMap.update_eq_append hseparate
    change Except.ok { ofKind "object" with children := OrderedMap.update [] cs } = _
    rw [hupdate]
    rfl

end Node

end WireShape
