import Mathlib.Data.List.Induction
import WireShape.Proofs.Grouping
import WireShape.Source

/-!
# Routes by path and method

A source lists its routes one after the other. Where no two of them have the same path and the same
method, they are the routes by path: the paths in the order in which they occur first, and under each
of them its methods in the order of the list. Where two have, the second one is refused.

* `Route.Clash`: routes with the same path and the same method.
* `Source.byPath`: routes by path and method.
* `Source.foldlM_addRoute`: what becomes of a list of routes.
-/

namespace WireShape

/-- The value as a key; null where it is none. -/
def Value.key : Value → Atom
  | .atom a => a
  | _ => .null

namespace Route

/-- The path and the method as keys. -/
def pathKey (r : Route) : Atom := r.path.key

def methodKey (r : Route) : Atom := r.method.key

/-- Routes with the same path and the same method. -/
def Clash (r r' : Route) : Prop :=
  r.path.same r'.path = true ∧ (r.methodKey == r'.methodKey) = true

/-- The path can be a key. -/
def Keyed (r : Route) : Prop := r.path = .atom r.pathKey

/-- The path can be a key and can be shown. -/
def Shown (describe : Describe) (r : Route) : Prop :=
  r.Keyed ∧ ∃ text, r.path.display describe = .ok text

/-- The method is text. -/
def Texted (r : Route) : Prop := (∃ s, r.method = .str s) ∨ ∃ bs, r.method = .bytes bs

variable {r r' : Route}

theorem clash_iff (h : r.Keyed) (h' : r'.Keyed) : r.Clash r' ↔
    (r.pathKey == r'.pathKey) = true ∧ (r.methodKey == r'.methodKey) = true := by
  unfold Clash
  rw [h, h', Value.same]
  rfl

theorem Texted.method_eq (h : r.Texted) : r.method = .atom r.methodKey := by
  unfold methodKey
  rcases h with ⟨s, hs⟩ | ⟨bs, hbs⟩
  · rw [hs]
    rfl
  · rw [hbs]
    rfl

/-- The method is named in capitals. -/
theorem Texted.exists_upper (describe : Describe) (h : r.Texted) :
    ∃ upper text, upperValue r.method = .ok upper ∧ upper.display describe = .ok text := by
  rcases h with ⟨s, hs⟩ | ⟨bs, hbs⟩
  · rw [hs]
    exact ⟨_, _, rfl, rfl⟩
  · rw [hbs]
    exact ⟨_, _, rfl, rfl⟩

end Route

namespace Source

variable {describe : Describe} {r : Route} {rs : List Route} {fault : Fault}

/-- The failure names a route that stands in the way of another one. -/
def IsDuplicate (fault : Fault) : Prop := ∃ method path, fault = .duplicateRoute method path

/-- The routes of one path by method. -/
def byMethod (rs : List Route) : OrderedMap Atom Route := rs.map fun r => (r.methodKey, r)

/-- Routes by path and method. -/
def byPath (rs : List Route) : Paths := OrderedMap.mapValues byMethod (grouped Route.pathKey rs)

/-! ## One route more -/

/-- What becomes of a route that is added to others. -/
inductive Adding (describe : Describe) (r : Route) (paths : Paths) : Except Fault Paths → Prop
  | new (hpath : r.Keyed)
      (hnew : OrderedMap.contains (paths.getD r.pathKey []) r.methodKey = false) :
      Adding describe r paths
        (.ok (paths.insert r.pathKey ((paths.getD r.pathKey []).insert r.methodKey r)))
  | taken {fault : Fault} (hpath : r.Keyed)
      (htaken : OrderedMap.contains (paths.getD r.pathKey []) r.methodKey = true)
      (hfault : r.Shown describe → IsDuplicate fault) : Adding describe r paths (.error fault)
  | unkeyed {fault : Fault} (hpath : ¬ r.Keyed) (hfault : ¬ IsDuplicate fault) :
      Adding describe r paths (.error fault)

theorem adding_addRoute (describe : Describe) (paths : Paths) (hr : r.Texted) :
    Adding describe r paths (addRoute describe paths r) := by
  have hmethod : r.method.asKey = .ok r.methodKey := by
    rw [hr.method_eq]
    rfl
  by_cases hpath : r.Keyed
  · have hkey : r.path.asKey = .ok r.pathKey := by
      rw [show r.path = .atom r.pathKey from hpath]
      rfl
    obtain ⟨upper, shown, hupper, hshown⟩ := hr.exists_upper describe
    unfold addRoute
    rw [hkey, hmethod, hupper]
    change Adding describe r paths
      (if OrderedMap.contains (paths.getD r.pathKey []) r.methodKey then _ else _)
    split
    · rename_i htaken
      change Adding describe r paths (upper.display describe >>= _)
      rw [hshown]
      change Adding describe r paths (r.path.display describe >>= _)
      cases htext : r.path.display describe with
      | error fault =>
        refine .taken hpath htaken ?_
        rintro ⟨_, text, heq⟩
        rw [htext] at heq
        cases heq
      | ok text => exact .taken hpath htaken fun _ => ⟨shown, text, rfl⟩
    · rename_i hnew
      exact .new hpath (Bool.eq_false_iff.mpr hnew)
  · have hkey : ∃ name, r.path.asKey = .error (.unhashable name) := by
      cases hcase : r.path with
      | atom a =>
        refine absurd ?_ hpath
        unfold Route.Keyed Route.pathKey
        rw [hcase]
        rfl
      | list => exact ⟨_, rfl⟩
      | _ => exact ⟨_, rfl⟩
    obtain ⟨name, hkey⟩ := hkey
    unfold addRoute
    rw [hkey]
    exact .unkeyed hpath nofun

theorem getD_byPath {k : Atom} :
    (byPath rs).getD k [] = byMethod ((grouped Route.pathKey rs).getD k []) :=
  OrderedMap.getD_mapValues (f := byMethod) (a := [])

/-- The methods of a path are those of the routes with the path. -/
theorem mem_getD_byPath {k : Atom} {m : Atom × Route} : m ∈ (byPath rs).getD k [] ↔
    ∃ r' ∈ rs, (r'.pathKey == k) = true ∧ m = (r'.methodKey, r') := by
  rw [getD_byPath, getD_grouped, byMethod, List.mem_map]
  simp only [mem_withKey, and_assoc, eq_comm, BEq.comm]

theorem contains_byPath (hrs : ∀ r' ∈ rs, r'.Keyed) (hr : r.Keyed) :
    OrderedMap.contains ((byPath rs).getD r.pathKey []) r.methodKey = true ↔
      ∃ r' ∈ rs, r'.Clash r := by
  rw [OrderedMap.contains_iff]
  constructor
  · rintro ⟨m, hm, hmethod⟩
    obtain ⟨r', hr', hpath, rfl⟩ := mem_getD_byPath.mp hm
    exact ⟨r', hr', (Route.clash_iff (hrs r' hr') hr).mpr ⟨hpath, hmethod⟩⟩
  · rintro ⟨r', hr', hclash⟩
    obtain ⟨hpath, hmethod⟩ := (Route.clash_iff (hrs r' hr') hr).mp hclash
    exact ⟨_, mem_getD_byPath.mpr ⟨r', hr', hpath, rfl⟩, hmethod⟩

/-- A route that clashes with none is added to those of its path. -/
theorem byPath_concat (hrs : ∀ r' ∈ rs, r'.Keyed) (hr : r.Keyed) (hapart : ∀ r' ∈ rs, ¬ r'.Clash r) :
    byPath (rs ++ [r]) = (byPath rs).insert r.pathKey
      (((byPath rs).getD r.pathKey []).insert r.methodKey r) := by
  have hmethods : ((byPath rs).getD r.pathKey []).insert r.methodKey r =
      byMethod ((grouped Route.pathKey rs).getD r.pathKey [] ++ [r]) := by
    rw [OrderedMap.insert_eq_append, getD_byPath, byMethod, byMethod, List.map_append,
      List.map_singleton]
    intro m hm
    obtain ⟨r', hr', hpath, rfl⟩ := mem_getD_byPath.mp hm
    exact Bool.eq_false_iff.mpr fun hmethod =>
      hapart r' hr' ((Route.clash_iff (hrs r' hr') hr).mpr ⟨hpath, hmethod⟩)
  rw [hmethods, byPath, byPath, OrderedMap.insert_mapValues, grouped_concat]

/-! ## All routes -/

/-- Why a list of routes is refused: by name only if two of them clash, and then always by name if
all paths can be shown. -/
structure Refusal (describe : Describe) (rs : List Route) (fault : Fault) : Prop where
  clash : IsDuplicate fault → ¬ rs.Pairwise fun r r' => ¬ r.Clash r'
  named : (∀ r ∈ rs, r.Shown describe) → IsDuplicate fault

/-- A list of routes is grouped by path and method, no two of which are the same, or refused. -/
theorem foldlM_addRoute (describe : Describe) (hrs : ∀ r ∈ rs, r.Texted) :
    ((∀ r ∈ rs, r.Keyed) ∧ rs.Pairwise (fun r r' => ¬ r.Clash r') ∧
      rs.foldlM (addRoute describe) [] = .ok (byPath rs)) ∨
    ∃ fault, rs.foldlM (addRoute describe) [] = .error fault ∧ Refusal describe rs fault := by
  induction rs using List.reverseRecOn with
  | nil =>
    refine .inl ⟨nofun, .nil, ?_⟩
    rw [byPath, grouped]
    rfl
  | append_singleton rs r ih =>
    have hlast := List.mem_append_right rs (List.mem_singleton_self r)
    rcases ih fun r' hr' => hrs r' (List.mem_append_left _ hr') with
      ⟨hkeyed, hpairwise, hfold⟩ | ⟨fault, hfold, hrefusal⟩
    · have hstep : (rs ++ [r]).foldlM (addRoute describe) [] =
          addRoute describe (byPath rs) r := by
        rw [List.foldlM_append, hfold]
        change List.foldlM (addRoute describe) (byPath rs) [r] = _
        rw [List.foldlM_cons]
        exact bind_pure (addRoute describe (byPath rs) r)
      have hadding := adding_addRoute describe (byPath rs) (hrs r hlast)
      rw [hstep]
      generalize addRoute describe (byPath rs) r = outcome at hadding
      cases hadding with
      | new hpath hnew =>
        have hapart : ∀ r' ∈ rs, ¬ r'.Clash r := fun r' hr' hclash => by
          rw [(contains_byPath hkeyed hpath).mpr ⟨r', hr', hclash⟩] at hnew
          cases hnew
        refine .inl ⟨fun r' hr' => ?_,
          List.pairwise_append.mpr ⟨hpairwise, List.pairwise_singleton _ _, fun r' hr' r'' hr'' => ?_⟩,
          congrArg Except.ok (byPath_concat hkeyed hpath hapart).symm⟩
        · rcases List.mem_append.mp hr' with hold | hnew
          · exact hkeyed r' hold
          · rwa [List.mem_singleton.mp hnew]
        · rw [List.mem_singleton.mp hr'']
          exact hapart r' hr'
      | taken hpath htaken hfault =>
        obtain ⟨r', hr', hclash⟩ := (contains_byPath hkeyed hpath).mp htaken
        refine .inr ⟨_, rfl, fun _ h => ?_, fun hshown => hfault (hshown r hlast)⟩
        exact (List.pairwise_append.mp h).2.2 r' hr' r (List.mem_singleton_self r) hclash
      | unkeyed hpath hfault =>
        exact .inr ⟨_, rfl, fun h => absurd h hfault, fun hshown => absurd (hshown r hlast).1 hpath⟩
    · refine .inr ⟨fault, ?_, fun h hall => ?_, fun hshown => ?_⟩
      · rw [List.foldlM_append, hfold]
        rfl
      · exact hrefusal.clash h (List.pairwise_append.mp hall).1
      · exact hrefusal.named fun r' hr' => hshown r' (List.mem_append_left _ hr')

end Source

end WireShape
