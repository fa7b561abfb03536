import WireShape.Command.Arguments
import WireShape.Proofs.Runs

/-!
# Command lines with a snapshot

The command lines that keep a snapshot, or check it, name a source, the snapshot and one flag. They are
accepted if and only if the source and the snapshot are words, that is, nothing that could be an
option: an option that takes a value takes only a word, and an option in place of the source leaves
the command line without one.

* `Arguments.parse_updating`: when a command line that writes the snapshot is accepted, and as what.
* `Arguments.parse_checking`: the same for one that checks it.
-/

namespace WireShape

namespace Arguments

/-- The word for strictness, if it is asked for. -/
def strictWords (strict : Bool) : List String := if strict then ["--strict"] else []

/-- The command line that keeps the digest of a source in a snapshot. -/
def updating (source snapshot : String) (strict : Bool) : List String :=
  source :: "--snapshot" :: snapshot :: "--update-hash" :: strictWords strict

/-- The command line that checks the digest of a source against a snapshot. -/
def checking (source snapshot : String) (strict : Bool) : List String :=
  source :: "--snapshot" :: snapshot :: "--check" :: strictWords strict

/-- An argument that is a word and not an option. -/
def IsWord (s : String) : Prop := classify s = .ok (.word s)

variable {s snapshot flag : String} {rest : List String} {ts : List Token} {token : Token}
  {strict : Bool} {args : Arguments} {switch : Switch}

/-! ## Tokens -/

/-- Before the mark, each argument is one token. -/
theorem tokens_cons_iff (h : s ≠ "--") : tokens (s :: rest) = .ok ts ↔
    ∃ token more, classify s = .ok token ∧ tokens rest = .ok more ∧ ts = token :: more := by
  have htokens : tokens (s :: rest) = do return (← classify s) :: (← tokens rest) := by
    rw [tokens]
    exact h
  rw [htokens, bind_eq_ok_iff]
  constructor
  · rintro ⟨token, htoken, hrest⟩
    obtain ⟨more, hmore, heq⟩ := bind_eq_ok_iff.mp hrest
    cases heq
    exact ⟨token, more, htoken, hmore, rfl⟩
  · rintro ⟨token, more, htoken, hmore, rfl⟩
    exact ⟨token, htoken, bind_eq_ok_iff.mpr ⟨more, hmore, rfl⟩⟩

theorem IsWord.ne_mark (h : IsWord s) : s ≠ "--" := by
  rintro rfl
  cases h

/-- A candidate is an option. -/
theorem option_of_candidates {cs : List Char} (h : token ∈ candidates cs) :
    ∃ name switch value, token = .option name switch value := by
  unfold candidates at h
  split at h
  · obtain ⟨e, _, rfl⟩ := List.mem_map.mp h
    exact ⟨_, _, _, rfl⟩
  · obtain ⟨e, _, rfl⟩ := List.mem_map.mp h
    exact ⟨_, _, _, rfl⟩
  · cases h

/-- Only a word is read as a word. -/
theorem isWord_of_classify {w : String} (h : classify s = .ok (.word w)) : IsWord s := by
  have hword : w = s := by
    unfold classify at h
    dsimp only at h
    split at h
    · cases h
      rfl
    · split at h
      · rename_i token hwritten
        cases h
        unfold writtenOut? at hwritten
        split at hwritten
        · cases hwritten
        · cases hcut : cutValue? s.toList with
          | none => simp [hcut] at hwritten
          | some parts => simp [hcut, Option.bind_eq_some_iff] at hwritten
      · split at h
        · rename_i token hcandidates
          cases h
          obtain ⟨_, _, _, heq⟩ := option_of_candidates (hcandidates ▸ List.mem_singleton_self _)
          cases heq
        · cases h
        · split at h <;> cases h
          rfl
  exact hword ▸ h

/-- What is read as a word is one. -/
theorem tokens_uncons (h : tokens (s :: rest) = .ok ts) : ∃ token more, ts = token :: more ∧
    ∀ w, token = .word w → IsWord s ∧ tokens rest = .ok more := by
  by_cases hmark : s = "--"
  · subst hmark
    cases h
    exact ⟨.mark, _, rfl, fun w hw => by cases hw⟩
  · obtain ⟨token, more, htoken, hmore, rfl⟩ := (tokens_cons_iff hmark).mp h
    refine ⟨token, more, rfl, ?_⟩
    rintro w rfl
    exact ⟨isWord_of_classify htoken, hmore⟩

/-! ## Reading on -/

section Consume

variable {p after : Progress} {more : List Token} {name : String} {value : Option String}

theorem source_setFlag : (p.setFlag switch).source = p.source := by
  cases switch <;> rfl

theorem source_setValue {v : String} : (p.setValue switch v).source = p.source := by
  cases switch <;> rfl

/-- Before an option, a token that is no word leaves the command line without a source. -/
theorem source_of_consume (hword : ∀ v, token ≠ .word v)
    (h : consume p (token :: .option name switch value :: more) = .ok after) :
    ∃ next, next.source = p.source ∧ consume next (.option name switch value :: more) = .ok after := by
  cases token with
  | word v => exact absurd rfl (hword v)
  | mark =>
    rw [consume] at h
    exact ⟨{ p with stray := p.stray || p.source.isSome }, rfl, h⟩
  | unknown =>
    rw [consume] at h
    exact ⟨{ p with stray := true }, rfl, h⟩
  | option _ first _ =>
    unfold consume at h
    split at h
    · cases h
    · split at h
      · split at h
        · exact ⟨_, source_setValue, h⟩
        · rename_i heq
          cases heq
        · cases h
      · split at h
        · cases h
        · exact ⟨_, source_setFlag, h⟩

/-- The snapshot has to be a word. -/
theorem word_of_consume
    (h : consume p (.option name .snapshot none :: token :: more) = .ok after) :
    ∃ v, token = .word v ∧ consume (p.setValue .snapshot v) more = .ok after := by
  unfold consume at h
  rw [if_neg (by decide), if_pos (by decide)] at h
  split at h
  · rename_i heq
    cases heq
  · rename_i heq
    cases heq
    exact ⟨_, rfl, h⟩
  · cases h

end Consume

/-! ## Whole command lines -/

theorem classify_snapshot : classify "--snapshot" = .ok (.option "--snapshot" .snapshot none) := rfl

/-- The tokens of the word for strictness, if it is there. -/
def strictTokens (strict : Bool) : List Token :=
  if strict then [.option "--strict" .strict none] else []

theorem tokens_strictWords : tokens (strictWords strict) = .ok (strictTokens strict) := by
  cases strict <;> rfl

/-- What a command line says that names a source, a snapshot and one flag. -/
def withFlag (source snapshot : String) (switch : Switch) (strict : Bool) : Arguments :=
  { ((({} : Progress).setValue .snapshot snapshot).setFlag switch).arguments with source, strict }

section Flag

variable (hflag : classify flag = .ok (.option flag switch none))
  (hswitch : switch = .updateHash ∨ switch = .check)
include hflag hswitch

omit hswitch in
theorem tokens_flag : tokens (flag :: strictWords strict) =
    .ok (.option flag switch none :: strictTokens strict) := by
  have hmark : flag ≠ "--" := by
    rintro rfl
    cases hflag
  exact (tokens_cons_iff hmark).mpr ⟨_, _, hflag, tokens_strictWords, rfl⟩

/-- The flags that come last set what they say. -/
theorem consume_flags {p : Progress} :
    consume p (.option flag switch none :: strictTokens strict) = .ok
      (if strict then (p.setFlag switch).setFlag .strict else p.setFlag switch) := by
  rcases hswitch with rfl | rfl <;> cases strict <;> rfl

theorem parse_words (hs : IsWord s) (hsnapshot : IsWord snapshot) :
    parse (s :: "--snapshot" :: snapshot :: flag :: strictWords strict) =
      .ok (withFlag s snapshot switch strict) := by
  have htokens : tokens (s :: "--snapshot" :: snapshot :: flag :: strictWords strict) =
      .ok (.word s :: .option "--snapshot" .snapshot none :: .word snapshot ::
        .option flag switch none :: strictTokens strict) :=
    (tokens_cons_iff hs.ne_mark).mpr ⟨_, _, hs, (tokens_cons_iff (by decide)).mpr
      ⟨_, _, classify_snapshot, (tokens_cons_iff hsnapshot.ne_mark).mpr
        ⟨_, _, hsnapshot, tokens_flag hflag, rfl⟩, rfl⟩, rfl⟩
  unfold parse
  rw [htokens]
  rcases hswitch with rfl | rfl <;> cases strict <;> rfl

theorem words_of_parse
    (h : parse (s :: "--snapshot" :: snapshot :: flag :: strictWords strict) = .ok args) :
    IsWord s ∧ IsWord snapshot := by
  unfold parse at h
  obtain ⟨ts, htokens, hrest⟩ := bind_eq_ok_iff.mp h
  obtain ⟨p, hconsume, hsource⟩ := bind_eq_ok_iff.mp hrest
  by_cases hmark : s = "--"
  · -- After the mark all arguments are words, of which one only has a place.
    subst hmark
    cases htokens
    cases strict <;>
    · cases hconsume
      cases hsource
  · obtain ⟨token, _, htoken, hafter, rfl⟩ := (tokens_cons_iff hmark).mp htokens
    obtain ⟨_, _, hoption, hlast, rfl⟩ := (tokens_cons_iff (by decide)).mp hafter
    cases classify_snapshot.symm.trans hoption
    obtain ⟨second, more, rfl, hsecond⟩ := tokens_uncons hlast
    by_cases hword : ∃ w, token = .word w
    · obtain ⟨w, rfl⟩ := hword
      rw [consume, if_neg (by decide)] at hconsume
      · obtain ⟨v, rfl, _⟩ := word_of_consume hconsume
        exact ⟨isWord_of_classify htoken, (hsecond v rfl).1⟩
      · exact fun _ heq => by cases heq
    · -- No source is read before the snapshot, and none after it.
      obtain ⟨next, hnext, hoptions⟩ := source_of_consume (not_exists.mp hword) hconsume
      obtain ⟨v, rfl, hflags⟩ := word_of_consume hoptions
      rw [tokens_flag hflag] at hsecond
      cases (hsecond v rfl).2
      rw [consume_flags hflag hswitch] at hflags
      have hnone : p.source = none := by
        cases hflags
        split <;> simp only [source_setFlag, source_setValue, hnext]
      rw [hnone] at hsource
      cases hsource

theorem parse_words_iff :
    parse (s :: "--snapshot" :: snapshot :: flag :: strictWords strict) = .ok args ↔
      (IsWord s ∧ IsWord snapshot) ∧ args = withFlag s snapshot switch strict := by
  constructor
  · intro h
    obtain ⟨hs, hsnapshot⟩ := words_of_parse hflag hswitch h
    rw [parse_words hflag hswitch hs hsnapshot] at h
    exact ⟨⟨hs, hsnapshot⟩, (Except.ok.inj h).symm⟩
  · rintro ⟨⟨hs, hsnapshot⟩, rfl⟩
    exact parse_words hflag hswitch hs hsnapshot

end Flag

/-- A command line that keeps a snapshot is accepted if the source and the snapshot are words. -/
theorem parse_updating : parse (updating s snapshot strict) = .ok args ↔
    (IsWord s ∧ IsWord snapshot) ∧ args = { source := s, snapshot, updateHash := true, strict } :=
  parse_words_iff rfl (.inl rfl)

/-- A command line that checks a snapshot is accepted if the source and the snapshot are words. -/
theorem parse_checking : parse (checking s snapshot strict) = .ok args ↔
    (IsWord s ∧ IsWord snapshot) ∧ args = { source := s, snapshot, check := true, strict } :=
  parse_words_iff rfl (.inr rfl)

end Arguments

end WireShape
