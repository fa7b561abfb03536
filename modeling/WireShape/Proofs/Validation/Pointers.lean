import WireShape.Proofs.Definitions
import WireShape.Proofs.NullTypes
import WireShape.Validation.Pointer

/-!
# References to plain names

A bucket or a name that has none of the characters with a meaning in references is a step of its
own. So a reference to such a definition leads to what stands under the two names, and in the
checked form of a document to the checked form of that, or nowhere.

* `Text.IsPlain`: texts without slash, tilde and percent sign.
* `Pointer.steps_definition`: the steps of a reference to a definition.
* `NullTypes.ShowsExpanded.target`: what a reference leads to in a checked form.
-/

namespace WireShape

open Value (Fields)

namespace Text

/-- A text without the characters that have a meaning in references. -/
def IsPlain (s : String) : Bool := s.toList.all fun c => c != '/' && c != '~' && c != '%'

variable {stray : Stray} {cs : List Char} {s : String}

theorem IsPlain.mem_iff : IsPlain s = true ↔ ∀ c ∈ s.toList, c ≠ '/' ∧ c ≠ '~' ∧ c ≠ '%' := by
  simp [IsPlain, and_assoc]

theorem decodeUtf8_ascii {bytes : List UInt8} (h : ∀ b ∈ bytes, b.toNat < 0x80) :
    decodeUtf8 stray bytes = bytes.map fun b => Char.ofNat b.toNat := by
  unfold decodeUtf8
  induction bytes with
  | nil => rfl
  | cons b bytes ih =>
    rw [decodeFrom, if_pos (h b List.mem_cons_self), ih fun b' hb' => h b' (List.mem_cons_of_mem _ hb')]
    rfl

theorem ofNat_toByte {c : Char} (h : c.toNat < 0x80) :
    Char.ofNat (UInt8.ofNat c.toNat).toNat = c := by
  rw [UInt8.toNat_ofNat', Nat.mod_eq_of_lt (by omega), Char.ofNat_toNat]

/-- Text without percent sign has no escapes; what is left of a run are ASCII characters. -/
theorem percentDecodeFrom_plain {run : List UInt8} (hrun : ∀ b ∈ run, b.toNat < 0x80)
    (hcs : '%' ∉ cs) :
    percentDecodeFrom stray run cs = (run.reverse.map fun b => Char.ofNat b.toNat) ++ cs := by
  induction cs generalizing run with
  | nil =>
    rw [percentDecodeFrom, decodeUtf8_ascii fun b hb => hrun b (List.mem_reverse.mp hb),
      List.append_nil]
  | cons c cs ih =>
    obtain ⟨hc, hrest⟩ := List.ne_and_not_mem_of_not_mem_cons hcs
    rw [percentDecodeFrom]
    · split
      · rename_i hascii
        have hbyte : (UInt8.ofNat c.toNat).toNat < 0x80 := by
          rw [UInt8.toNat_ofNat', Nat.mod_eq_of_lt (by omega)]
          exact hascii
        rw [ih (List.forall_mem_cons.mpr ⟨hbyte, hrun⟩) hrest, List.reverse_cons, List.map_append,
          List.append_assoc]
        simp only [List.map_cons, List.map_nil, List.singleton_append, ofNat_toByte hascii]
      · rw [ih (fun _ hb => absurd hb List.not_mem_nil) hrest,
          decodeUtf8_ascii fun b hb => hrun b (List.mem_reverse.mp hb)]
        rfl
    · exact fun _ _ _ heq _ => hc heq.symm

theorem percentDecode_plain (hcs : '%' ∉ cs) : percentDecode stray cs = cs :=
  percentDecodeFrom_plain (fun _ hb => absurd hb List.not_mem_nil) hcs

theorem cutAt_plain {c : Char} (hcs : c ∉ cs) : cutAt c cs = [cs] := by
  induction cs with
  | nil => rfl
  | cons d cs ih =>
    obtain ⟨hd, hrest⟩ := List.ne_and_not_mem_of_not_mem_cons hcs
    rw [cutAt, if_neg (Ne.symm hd), ih hrest]

theorem cutAt_append {c : Char} {rest : List Char} (hcs : c ∉ cs) :
    cutAt c (cs ++ c :: rest) = cs :: cutAt c rest := by
  induction cs with
  | nil => rw [List.nil_append, cutAt, if_pos rfl]
  | cons d cs ih =>
    obtain ⟨hd, hrest⟩ := List.ne_and_not_mem_of_not_mem_cons hcs
    rw [List.cons_append, cutAt, if_neg (Ne.symm hd), ih hrest]

end Text

namespace Pointer

open Text (IsPlain)

variable {bucket name s : String}

theorem readTildes_plain {digit stands : Char} {cs : List Char} (hcs : '~' ∉ cs) :
    readTildes digit stands cs = cs := by
  induction cs with
  | nil => rfl
  | cons c cs ih =>
    obtain ⟨hc, hrest⟩ := List.ne_and_not_mem_of_not_mem_cons hcs
    rw [readTildes, ih hrest]
    exact fun _ _ heq _ => absurd heq.symm hc

/-- A plain text is the key that it denotes. -/
theorem keyOf_plain (h : IsPlain s = true) : keyOf s.toList = s := by
  have hcs : '~' ∉ s.toList := fun hmem => (Text.IsPlain.mem_iff.mp h _ hmem).2.1 rfl
  rw [keyOf, readTildes_plain hcs, readTildes_plain hcs, String.ofList_toList]

/-- The steps of a reference to a definition. -/
theorem steps_definition (hbucket : IsPlain bucket = true) (hname : IsPlain name = true) :
    steps ("components/" ++ bucket ++ "/" ++ name).toList =
      ["components".toList, bucket.toList, name.toList] := by
  have hb := Text.IsPlain.mem_iff.mp hbucket
  have hn := Text.IsPlain.mem_iff.mp hname
  have htext : ("components/" ++ bucket ++ "/" ++ name).toList =
      "components".toList ++ '/' :: (bucket.toList ++ '/' :: name.toList) := by
    simp [String.toList_append]
  have hescape : '%' ∉ ("components/" ++ bucket ++ "/" ++ name).toList := by
    rw [htext]
    intro hmem
    rcases List.mem_append.mp hmem with hmem | hmem
    · revert hmem
      decide
    · rcases List.mem_cons.mp hmem with hmem | hmem
      · cases hmem
      · rcases List.mem_append.mp hmem with hmem | hmem
        · exact (hb _ hmem).2.2 rfl
        · rcases List.mem_cons.mp hmem with hmem | hmem
          · cases hmem
          · exact (hn _ hmem).2.2 rfl
  rw [steps, Text.percentDecode_plain hescape, htext, Text.cutAt_append (by decide),
    Text.cutAt_append fun hmem => (hb _ hmem).1 rfl, Text.cutAt_plain fun hmem => (hn _ hmem).1 rfl]

/-- A reference to a definition leads through the two names. -/
theorem target_definition {document : Value} (hbucket : IsPlain bucket = true)
    (hname : IsPlain name = true) :
    target document (.str (bucketPath bucket ++ name)) =
      ["components".toList, bucket.toList, name.toList].foldlM follow document := by
  have htext : (bucketPath bucket ++ name).toList =
      '#' :: '/' :: ("components/" ++ bucket ++ "/" ++ name).toList := by
    simp [bucketPath, String.toList_append]
  have hstart : (Value.str (bucketPath bucket ++ name)).startsWith (.str "#") = .ok true := by
    rw [Value.startsWith, htext]
    rfl
  unfold target
  rw [hstart, ← steps_definition hbucket hname]
  simp only [htext]
  rfl

end Pointer

/-! ## Steps into checked forms -/

section Expanded

open NullTypes (ShowsExpanded)

variable {fields after es : Fields} {identity : Option Nat} {bucket name s : String} {next : Value}

/-- One step leads to the checked form of the mapping that stands there, or nowhere. -/
theorem NullTypes.ShowsExpanded.follow (h : ShowsExpanded fields after)
    (hplain : Text.IsPlain s = true)
    (hfound : OrderedMap.get? fields (.str s) = some (.map es identity))
    (hnext : Pointer.follow (.ofEntries after) s.toList = .ok next) :
    expand (.map es identity) = .ok next := by
  have hget : OrderedMap.get? after (.str s) = some next := by
    unfold Pointer.follow at hnext
    dsimp only [Value.ofEntries] at hnext
    rw [Pointer.keyOf_plain hplain] at hnext
    split at hnext
    · rename_i hsome
      cases hnext
      exact hsome
    · cases hnext
  cases hmark : Atom.str "nullable" == Atom.str s with
  | true =>
    rw [h.absent _ (.inr hmark)] at hget
    cases hget
  | false =>
    obtain ⟨w, hw, hshown⟩ := h.found _ _ hfound hmark
    obtain ⟨inner, rfl, _⟩ := expand_map hw
    rw [hshown (.inl rfl)] at hget
    cases hget
    exact hw

/-- A reference to a definition leads to its checked form, or nowhere. -/
theorem NullTypes.ShowsExpanded.target (h : ShowsExpanded fields after) {c : Components}
    (hbucket : Text.IsPlain bucket = true) (hname : Text.IsPlain name = true)
    (hcomponents : OrderedMap.get? fields (.str "components") = some c.toValue)
    (hfound : c.find? (.str bucket) (.str name) = some (.map es identity))
    (hnext : Pointer.target (.ofEntries after) (.str (bucketPath bucket ++ name)) = .ok next) :
    expand (.map es identity) = .ok next := by
  rw [Pointer.target_definition hbucket hname] at hnext
  obtain ⟨buckets, hbuckets, hnext⟩ := bind_eq_ok_iff.mp hnext
  obtain ⟨entries, hentries, hnext⟩ := bind_eq_ok_iff.mp hnext
  obtain ⟨definition, hdefinition, hpure⟩ := bind_eq_ok_iff.mp hnext
  cases hpure
  obtain ⟨inBuckets, rfl, hshown⟩ := expand_map (h.follow (by decide) hcomponents hbuckets)
  unfold Components.find? Components.bucket OrderedMap.getD at hfound
  cases hget : OrderedMap.get? c (.str bucket) with
  | none =>
    rw [hget] at hfound
    cases hfound
  | some definitions =>
    rw [hget] at hfound
    have hinner : OrderedMap.get? (OrderedMap.mapValues (fun entries => Value.ofEntries entries) c)
        (.str bucket) = some (.ofEntries definitions) := by
      rw [OrderedMap.get?_mapValues, hget]
      rfl
    obtain ⟨inBucket, rfl, hshown'⟩ := expand_map (hshown.follow hbucket hinner hentries)
    exact hshown'.follow hname hfound hdefinition

/-- One step leads to the checked form of a mapping that stands there, unless the step is the mark. -/
theorem NullTypes.ShowsExpanded.follow_found (h : ShowsExpanded fields after)
    (hplain : Text.IsPlain s = true) (hmark : s ≠ "nullable")
    (hfound : OrderedMap.get? fields (.str s) = some (.map es identity)) :
    ∃ w, expand (.map es identity) = .ok w ∧
      Pointer.follow (.ofEntries after) s.toList = .ok w := by
  have hother : (Atom.str "nullable" == Atom.str s) = false :=
    Bool.eq_false_iff.mpr fun hsame => hmark (Atom.str.inj (Atom.beq_str_iff.mp hsame)).symm
  obtain ⟨w, hw, hshown⟩ := h.found _ _ hfound hother
  obtain ⟨inner, rfl, _⟩ := expand_map hw
  refine ⟨_, hw, ?_⟩
  unfold Pointer.follow
  dsimp only [Value.ofEntries]
  rw [Pointer.keyOf_plain hplain, hshown (.inl rfl)]
  rfl

/-- A reference to a definition leads to its checked form, unless the bucket or the name is the
mark. -/
theorem NullTypes.ShowsExpanded.target_found (h : ShowsExpanded fields after) {c : Components}
    (hbucket : Text.IsPlain bucket = true) (hname : Text.IsPlain name = true)
    (hbucket' : bucket ≠ "nullable") (hname' : name ≠ "nullable")
    (hcomponents : OrderedMap.get? fields (.str "components") = some c.toValue)
    (hfound : c.find? (.str bucket) (.str name) = some (.map es identity)) :
    ∃ w, expand (.map es identity) = .ok w ∧
      Pointer.target (.ofEntries after) (.str (bucketPath bucket ++ name)) = .ok w := by
  obtain ⟨buckets, hbuckets, htoBuckets⟩ := h.follow_found (by decide) (by decide) hcomponents
  obtain ⟨inBuckets, rfl, hshown⟩ := expand_map hbuckets
  unfold Components.find? Components.bucket OrderedMap.getD at hfound
  cases hget : OrderedMap.get? c (.str bucket) with
  | none =>
    rw [hget] at hfound
    cases hfound
  | some definitions =>
    rw [hget] at hfound
    have hinner : OrderedMap.get? (OrderedMap.mapValues (fun entries => Value.ofEntries entries) c)
        (.str bucket) = some (.ofEntries definitions) := by
      rw [OrderedMap.get?_mapValues, hget]
      rfl
    obtain ⟨entries, hentries, htoEntries⟩ := hshown.follow_found hbucket hbucket' hinner
    obtain ⟨inBucket, rfl, hshown'⟩ := expand_map hentries
    obtain ⟨w, hw, htoDefinition⟩ := hshown'.follow_found hname hname' hfound
    refine ⟨w, hw, ?_⟩
    rw [Pointer.target_definition hbucket hname]
    simp only [List.foldlM_cons, List.foldlM_nil, htoBuckets, htoEntries, htoDefinition, bind,
      Except.bind]
    rfl

end Expanded

end WireShape
