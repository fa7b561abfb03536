import WireShape.Proofs.Command.Arguments
import WireShape.Proofs.Command.Files
import WireShape.Proofs.Command.Steps
import WireShape.Proofs.Json.Sorted

/-!
# Snapshots

A run that updates the snapshot and a later run that checks it meet in one file only. What the first
one writes is the digest on a line of its own, and what the second one reads is that line without the
blanks around it, so it has the digest again: neither the ends of lines nor the blanks can be part of
one.

* `Command.read_digest`: a digest that was written is read.
* `Command.check_after_update`: a check after an update compares the digests.
* `Command.run_checking`: a check after an update tells whether the digests are the same.
-/

namespace WireShape

/-! ## A digest reads back -/

/-- Text that stands between blanks, of which it has none itself. -/
theorem Text.stripBy_append {p : Char → Bool} {cs blanks : List Char} (hcs : ∀ c ∈ cs, p c = false)
    (hblanks : ∀ c ∈ blanks, p c = true) : stripBy p (cs ++ blanks) = cs := by
  have hkeep : ∀ {c : Char} {rest : List Char}, p c = false →
      (c :: rest).dropWhile p = c :: rest := by
    intro c rest hc
    rw [List.dropWhile_cons_of_neg]
    rw [hc]
    exact Bool.false_ne_true
  have hend : ∀ {cs blanks : List Char}, (∀ c ∈ cs, p c = false) → (∀ c ∈ blanks, p c = true) →
      (blanks ++ cs).dropWhile p = cs := by
    intro cs blanks hcs hblanks
    rw [List.dropWhile_append_of_pos hblanks]
    cases cs with
    | nil => rfl
    | cons c rest => exact hkeep (hcs c List.mem_cons_self)
  unfold stripBy
  cases cs with
  | nil =>
    have hall := hend hcs hblanks
    rw [List.append_nil] at hall
    rw [List.nil_append, hall]
    rfl
  | cons c rest =>
    rw [List.cons_append, hkeep (hcs c List.mem_cons_self), ← List.cons_append, List.reverse_append,
      hend, List.reverse_reverse]
    · exact fun c hc => hcs c (List.mem_reverse.mp hc)
    · exact fun c hc => hblanks c (List.mem_reverse.mp hc)

/-- Text without carriage returns is read as it was written. -/
theorem FileTree.withLineFeeds_eq {cs : List Char} (h : ∀ c ∈ cs, c ≠ '\r') :
    withLineFeeds cs = cs := by
  induction cs with
  | nil => rfl
  | cons c rest ih =>
    rw [withLineFeeds, ih fun d hd => h d (List.mem_cons_of_mem _ hd)]
    · intro _ hreturn
      exact absurd hreturn (h c List.mem_cons_self)
    · exact fun hreturn => absurd hreturn (h c List.mem_cons_self)

/-- The characters of a digest are neither blanks nor do they end a line. -/
theorem Sha256.mem_hexDigest {text : String} {c : Char} (hc : c ∈ (hexDigest text).toList) :
    Text.isBlank c = false ∧ c ≠ '\r' := by
  have hdigit : ∀ n < 16, Text.isBlank (hexDigit n) = false ∧ hexDigit n ≠ '\r' := by decide
  unfold hexDigest at hc
  rw [String.toList_ofList, List.mem_flatMap] at hc
  obtain ⟨b, _, hb⟩ := hc
  have hbyte : b.toNat < 256 := b.toNat_lt
  rcases List.mem_pair.mp hb with rfl | rfl
  · exact hdigit _ (by omega)
  · exact hdigit _ (Nat.mod_lt _ (by decide))

namespace Command

variable {catalogue : Catalogue} {env : Environment} {files : FileTree} {snapshot : TreePath}
  {document d d' : Value} {hash hash' source source' path : String} {strict : Bool} {c : Console}
  {E : Fault → Prop}

/-- A digest that was written to the snapshot is read from it. -/
theorem read_digest {files' : FileTree} (hdigest : Document.digest document = .ok hash)
    (hwrite : files.write snapshot (hash ++ "\n") = .ok files') :
    ∃ text, files'.read snapshot = .ok text ∧ Text.strip text = hash := by
  obtain ⟨text, _, heq⟩ := bind_eq_ok_iff.mp hdigest
  cases heq
  refine ⟨_, FileTree.read_write hwrite, ?_⟩
  have hreturn : ∀ c ∈ (Sha256.hexDigest text ++ "\n").toList, c ≠ '\r' := by
    intro c hc
    rw [String.toList_append] at hc
    rcases List.mem_append.mp hc with hdigit | hfeed
    · exact (Sha256.mem_hexDigest hdigit).2
    · rw [List.mem_singleton.mp hfeed]
      decide
  have hfeed : ∀ c ∈ "\n".toList, Text.isBlank c = true := fun c hc => by
    rw [List.mem_singleton.mp hc]
    rfl
  unfold Text.strip
  rw [FileTree.withLineFeeds_eq hreturn, String.toList_ofList, String.toList_append,
    Text.stripBy_append (fun c hc => (Sha256.mem_hexDigest hc).1) hfeed,
    String.ofList_toList]

/-! ## The two runs -/

/-- A run that updates the snapshot succeeds if the digest can be written. -/
theorem ends_updating
    (hbuild : (build catalogue env { source, strict }).1 = .ok (document, hash)) :
    Ends (perform catalogue env { source, snapshot := path, updateHash := true, strict }) c
      (fun status after => status = success ∧
        c.files.write (TreePath.parse path) (hash ++ "\n") = .ok after.files) fun _ => True := by
  refine ends_perform_of_ok hbuild fun after hlogged => ?_
  unfold publish
  refine (ends_updateSnapshot.mono (fun _ _ h => h) fun _ _ => trivial).bind ?_
  intro _ last hwrite
  exact ends_pure ⟨rfl, hlogged.files ▸ hwrite⟩

/-- A run that checks a snapshot tells whether it holds the digest. -/
theorem ends_checking {text : String}
    (hbuild : (build catalogue env { source, strict }).1 = .ok (document, hash))
    (hholds : c.files.holds (TreePath.parse path) = true)
    (hread : c.files.read (TreePath.parse path) = .ok text) :
    Ends (perform catalogue env { source, snapshot := path, check := true, strict }) c
      (fun status after => after.files = c.files ∧
        status = if hash = Text.strip text then success else mismatch) E := by
  refine ends_perform_of_ok hbuild fun after hlogged => ?_
  unfold publish
  refine (ends_checkSnapshot.mono (R := fun status last => last.files = c.files ∧
    status = if hash = Text.strip text then none else some mismatch) ?_ ?_).bind ?_
  · rintro status last ⟨hfiles, hstatus⟩
    rw [hlogged.files, if_pos hholds] at hstatus
    obtain ⟨text', hread', hstatus⟩ := hstatus
    cases hread.symm.trans hread'
    exact ⟨hfiles.trans hlogged.files, hstatus⟩
  · intro fault hfault
    rw [hlogged.files, hread] at hfault
    cases hfault
  · rintro _ last ⟨hfiles, rfl⟩
    by_cases hsame : hash = Text.strip text
    · rw [if_pos hsame, if_pos hsame]
      exact ends_pure ⟨hfiles, rfl⟩
    · rw [if_neg hsame, if_neg hsame]
      exact ends_pure ⟨hfiles, rfl⟩

/-- A run that has updated the snapshot has written the digest to it. -/
theorem write_of_run {updated : Console}
    (hbuild : (build catalogue env { source, strict }).1 = .ok (document, hash))
    (hrun : run catalogue env files (Arguments.updating source path strict) =
      (.finished success, updated)) :
    Arguments.IsWord path ∧
      files.write (TreePath.parse path) (hash ++ "\n") = .ok updated.files := by
  obtain ⟨args, hparse⟩ := parse_of_run hrun
  obtain ⟨⟨_, hpath⟩, rfl⟩ := Arguments.parse_updating.mp hparse
  refine ⟨hpath, ?_⟩
  rcases run_of_ends (P := fun status after => status = success ∧
    files.write (TreePath.parse path) (hash ++ "\n") = .ok after.files) hparse
    (fun _ => ends_updating hbuild) with
    ⟨status, after, hends, _, hwrite⟩ | ⟨fault, after, hends, _⟩
  · cases hrun.symm.trans hends
    exact hwrite
  · cases hrun.symm.trans hends

/-- After a run that has updated the snapshot, and with nothing changed at the snapshot or above it, a
check compares the two digests and changes no file. -/
theorem check_after_update {catalogue' : Catalogue} {files' : FileTree} {updated : Console}
    (hgrounded : files.Grounded)
    (hbuild : (build catalogue env { source, strict }).1 = .ok (document, hash))
    (hbuild' : (build catalogue' env { source := source', strict }).1 = .ok (document', hash'))
    (hupdated : run catalogue env files (Arguments.updating source path strict) =
      (.finished success, updated))
    (hfiles : FileTree.AgreeAlong (TreePath.parse path).place updated.files files')
    (hword : Arguments.IsWord source') :
    ∃ checked, run catalogue' env files' (Arguments.checking source' path strict) =
        (.finished (if hash' = hash then success else mismatch), checked) ∧
      checked.files = files' := by
  obtain ⟨hpath, hwrite⟩ := write_of_run hbuild hupdated
  obtain ⟨text, hread, hstrip⟩ := read_digest (digest_of_build hbuild) hwrite
  rw [hfiles.read] at hread
  have hholds := hfiles.holds.symm.trans (FileTree.holds_write hgrounded hwrite)
  have hparse : Arguments.parse (Arguments.checking source' path strict) = _ :=
    Arguments.parse_checking.mpr ⟨⟨hword, hpath⟩, rfl⟩
  rcases run_of_ends (P := fun status after => after.files = files' ∧
    status = if hash' = Text.strip text then success else mismatch) (E := fun _ => False) hparse
    (fun _ => ends_checking hbuild' hholds hread) with
    ⟨status, checked, hrun, hsame, hstatus⟩ | ⟨_, _, _, hfalse⟩
  · rw [hstrip] at hstatus
    exact ⟨checked, hstatus ▸ hrun, hsame⟩
  · exact hfalse.elim

/-- After a run that has updated the snapshot, and with nothing changed at the snapshot or above it, a
check of any source ends with one of two statuses, by the digests of the two documents, and changes no
file. Documents that are the same but for the order of keys pass it, if their keys can be sorted. -/
theorem run_checking {catalogue' : Catalogue} {files' : FileTree} {updated : Console}
    (hgrounded : files.Grounded)
    (hbuild : (build catalogue env { source, strict }).1 = .ok (document, hash))
    (hbuild' : (build catalogue' env { source := source', strict }).1 = .ok (document', hash'))
    (hupdated : run catalogue env files (Arguments.updating source path strict) =
      (.finished success, updated))
    (hfiles : FileTree.AgreeAlong (TreePath.parse path).place updated.files files')
    (hword : Arguments.IsWord source') :
    ∃ status checked, run catalogue' env files' (Arguments.checking source' path strict) =
        (.finished status, checked) ∧
      checked.files = files' ∧ (status = success ∨ status = mismatch) ∧
      (status = success ↔ Document.digest document = Document.digest document') ∧
      (document.Alike document' → document.Sortable → status = success) := by
  have hdigest := digest_of_build hbuild
  have hdigest' := digest_of_build hbuild'
  obtain ⟨checked, hrun, hsame⟩ :=
    check_after_update hgrounded hbuild hbuild' hupdated hfiles hword
  by_cases heq : hash' = hash
  · rw [if_pos heq] at hrun
    refine ⟨success, checked, hrun, hsame, .inl rfl, iff_of_true rfl ?_, fun _ _ => rfl⟩
    rw [hdigest, hdigest', heq]
  · rw [if_neg heq] at hrun
    have hdigests : Document.digest document ≠ Document.digest document' := fun h =>
      heq (Except.ok.inj (hdigest'.symm.trans (h.symm.trans hdigest)))
    refine ⟨mismatch, checked, hrun, hsame, .inr rfl, iff_of_false (by decide) hdigests,
      fun halike hsortable => ?_⟩
    have hshown := (Document.digest_sameText (halike.sameText hsortable)).mp hdigest
    exact absurd (hdigest.trans hshown.symm) hdigests

/-! ## Levels in a tag -/

/-- The status of a run that finishes. -/
def Ending.status? : Ending → Option Nat
  | finished status => some status
  | _ => none

theorem eq_finished {result : Ending × Console} {status : Nat}
    (h : result.1.status? = some status) : result = (.finished status, result.2) := by
  obtain ⟨ending, after⟩ := result
  cases ending with
  | finished => cases h; rfl
  | _ => cases h

/-- A source without routes, with levels in its tag. -/
def gauges (levels : Value) : Source where
  tag := some (.ofFields [("name", .str "Gauges"), ("x-levels", levels)])
  schemas := some (.ofFields [])
  parameters := some (.ofFields [])
  routes := some []

def gaugeDocument (levels : Value) : Value :=
  .ofFields [("openapi", .str "3.0.3"),
    ("info", .ofFields [("title", .str "API"), ("version", .str "0.1.0")]),
    ("tags", .list [.ofFields [("name", .str "Gauges"), ("x-levels", levels)]]),
    ("paths", .ofFields []),
    ("components", .ofFields [("schemas", .ofFields []), ("parameters", .ofFields [])])]

def gaugeCatalogue (levels : Value) : Catalogue := [("app", [("Source", ⟨⟨#[]⟩, gauges levels⟩)])]

/-- The run that keeps the digest of such a source. -/
def updateGauges (levels : Value) : Ending × Console :=
  run (gaugeCatalogue levels) [] {} (Arguments.updating "app:Source" "hash.txt" false)

/-- The run that checks the digest of such a source after an update for other levels. -/
def checkGauges (levels levels' : Value) : Ending × Console :=
  run (gaugeCatalogue levels') [] (updateGauges levels).2.files
    (Arguments.checking "app:Source" "hash.txt" false)

theorem build_gauges {levels : Value} (h : Document.digest (gaugeDocument levels) = .ok hash) :
    (build (gaugeCatalogue levels) [] { source := "app:Source" }).1 =
      .ok (gaugeDocument levels, hash) := by
  unfold build gaugeCatalogue
  rw [find_app]
  exact Document.buildWithDigest_eq_ok_iff.mpr ⟨rfl, h⟩

theorem alike_gaugeDocument {levels levels' : Value} (h : levels.Alike levels') :
    (gaugeDocument levels).Alike (gaugeDocument levels') := by
  have htag : Value.Alike (.ofFields [("name", .str "Gauges"), ("x-levels", levels)])
      (.ofFields [("name", .str "Gauges"), ("x-levels", levels')]) :=
    .map (.refl _) rfl (.cons .refl (.cons h .nil))
  exact .map (.refl _) rfl (.cons .refl (.cons .refl (.cons (.list (.cons htag .nil))
    (.cons .refl (.cons .refl .nil)))))

theorem grounded_empty : FileTree.Grounded {} := by
  intro place _
  refine FileTree.isBlocked_eq_false_iff.mpr fun q _ text hfile => ?_
  unfold FileTree.at? at hfile
  split at hfile <;> cases hfile

theorem checkGauges_mismatch {levels levels' : Value}
    (hupdate : (updateGauges levels).1.status? = some success)
    (h : Document.digest (gaugeDocument levels) = .ok hash)
    (h' : Document.digest (gaugeDocument levels') = .ok hash') (hne : hash' ≠ hash) :
    (checkGauges levels levels').1.status? = some mismatch := by
  obtain ⟨checked, hrun, _⟩ := check_after_update grounded_empty (build_gauges h) (build_gauges h')
    (eq_finished hupdate) (fun _ _ => rfl) (rfl : Arguments.IsWord "app:Source")
  rw [if_neg hne] at hrun
  exact congrArg (fun result => result.1.status?) hrun

/-- Two levels, the lower one first. -/
def lowHigh : Value := .ofFields [("low", .int 0), ("high", .int 9)]

def highLow : Value := .ofFields [("high", .int 9), ("low", .int 0)]

theorem sortable_gaugeDocument {levels : Value} (h : levels.Sortable) :
    (gaugeDocument levels).Sortable := by
  have hempty : (Value.ofFields []).Sortable := Value.sortable_ofFields .nil nofun
  have htag : (Value.ofFields [("name", .str "Gauges"), ("x-levels", levels)]).Sortable :=
    Value.sortable_ofFields (by simp) (by simp [Value.sortable_atom, h])
  have htags : (Value.list [.ofFields [("name", .str "Gauges"), ("x-levels", levels)]]).Sortable :=
    .list (by simp [htag])
  have hinfo : (Value.ofFields [("title", .str "API"), ("version", .str "0.1.0")]).Sortable :=
    Value.sortable_ofFields (by simp) (by simp [Value.sortable_atom])
  have hcomponents : (Value.ofFields
      [("schemas", .ofFields []), ("parameters", .ofFields [])]).Sortable :=
    Value.sortable_ofFields (by simp) (by simp [hempty])
  exact Value.sortable_ofFields (by simp)
    (by simp [Value.sortable_atom, hempty, htags, hinfo, hcomponents])

theorem run_checking_gauges : FileTree.Grounded {} ∧ Arguments.IsWord "app:Source" ∧
    (updateGauges lowHigh).1 = .finished success ∧
    ∃ checked, checkGauges lowHigh highLow = (.finished success, checked) ∧
      checked.files = (updateGauges lowHigh).2.files := by
  have hupdate := @eq_finished (updateGauges lowHigh) success (by decide +kernel)
  have hok : (Document.digest (gaugeDocument lowHigh)).isOk = true := by decide +kernel
  have hok' : (Document.digest (gaugeDocument highLow)).isOk = true := by decide +kernel
  obtain ⟨hash, hdigest⟩ := exists_of_isOk hok
  obtain ⟨hash', hdigest'⟩ := exists_of_isOk hok'
  have halike : lowHigh.Alike highLow := .map (List.Perm.swap ..) rfl (.cons .refl (.cons .refl .nil))
  obtain ⟨status, checked, hrun, hfiles, _, _, hstatus⟩ := run_checking grounded_empty
    (build_gauges hdigest) (build_gauges hdigest') hupdate (fun _ _ => rfl) (rfl : Arguments.IsWord "app:Source")
  have hsortable : lowHigh.Sortable :=
    Value.sortable_ofFields (by decide) (by simp [Value.sortable_atom])
  obtain rfl := hstatus (alike_gaugeDocument halike) (sortable_gaugeDocument hsortable)
  exact ⟨grounded_empty, rfl, congrArg Prod.fst hupdate, checked, hrun, hfiles⟩

/-- A datum that is not a number, the same one wherever it occurs. -/
def notNumber : Atom := .float (.nan 1)

def nanFirst : Value := .ofEntries [(notNumber, .int 0), (.int 1, .int 9)]

def nanLast : Value := .ofEntries [(.int 1, .int 9), (notNumber, .int 0)]

/-- The same level as a binary floating point number. -/
def nanFirstFloat : Value :=
  .ofEntries [(notNumber, .int 0), (.int 1, .float (.finite false 9 0))]

/-- Documents can be equal and fail the check all the same: a key that is not a number is not sorted,
and a number is written as what it is. -/
theorem checkGauges_nan :
    (∃ hash, (build (gaugeCatalogue nanFirst) [] { source := "app:Source" }).1 =
      .ok (gaugeDocument nanFirst, hash)) ∧
    (∃ hash, (build (gaugeCatalogue nanLast) [] { source := "app:Source" }).1 =
      .ok (gaugeDocument nanLast, hash)) ∧
    (∃ hash, (build (gaugeCatalogue nanFirstFloat) [] { source := "app:Source" }).1 =
      .ok (gaugeDocument nanFirstFloat, hash)) ∧
    (gaugeDocument nanFirst).Alike (gaugeDocument nanLast) ∧
    (gaugeDocument nanFirst).same (gaugeDocument nanLast) = true ∧
    (gaugeDocument nanFirst).same (gaugeDocument nanFirstFloat) = true ∧
    (updateGauges nanFirst).1.status? = some success ∧
    (checkGauges nanFirst nanLast).1.status? = some mismatch ∧
    (checkGauges nanFirst nanFirstFloat).1.status? = some mismatch := by
  have hfirst : Document.digest (gaugeDocument nanFirst) =
      .ok "ac66111a05dd322fdb6493e4846331dd657f66535212f1e3a6f487bec52379fa" := by decide +kernel
  have hlast : Document.digest (gaugeDocument nanLast) =
      .ok "54a61e4f9570ad0add957e35a5ace9e35ba8e64e448798a96a11f306bc2de739" := by decide +kernel
  have hfloat : Document.digest (gaugeDocument nanFirstFloat) =
      .ok "4ed6f1cebf49d096f2c69d6570b16dc7c8a7a4c63fe650ca997cc1db624651be" := by decide +kernel
  have hupdate : (updateGauges nanFirst).1.status? = some success := by decide +kernel
  exact ⟨⟨_, build_gauges hfirst⟩, ⟨_, build_gauges hlast⟩, ⟨_, build_gauges hfloat⟩,
    alike_gaugeDocument (.map (List.Perm.swap ..) rfl (.cons .refl (.cons .refl .nil))),
    by decide +kernel, by decide +kernel, hupdate,
    checkGauges_mismatch hupdate hfirst hlast (by decide),
    checkGauges_mismatch hupdate hfirst hfloat (by decide)⟩

end Command

end WireShape
