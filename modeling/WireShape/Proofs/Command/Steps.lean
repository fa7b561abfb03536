import WireShape.Command.Run
import WireShape.Proofs.Document

/-!
# Steps of the command

A step ends with an answer or with a fault, on a console that it may have changed. What a sequence of
steps ends with is taken from what each of them ends with. What the log is given never reaches the
files or the output.

* `Command.Ends`: what a step ends with.
* `Command.Ends.bind`: a sequence of steps.
* `Command.ends_notes`: the log.
* `Command.ends_updateSnapshot`, `Command.ends_checkSnapshot`: the snapshot.
* `Command.ends_perform_of_ok`, `Command.ends_perform_of_error`: the build.
* `Command.run_of_ends`: a whole run, from the steps that it performs.
-/

namespace WireShape

namespace Command

/-- From a console the step ends with an answer and a console of which `P` holds, or with a fault of
which `E` holds. -/
def Ends {α : Type} (x : Step α) (c : Console) (P : α → Console → Prop) (E : Fault → Prop) : Prop :=
  (∃ a after, x c = (.ok a, after) ∧ P a after) ∨ ∃ fault after, x c = (.error fault, after) ∧ E fault

section Rules

variable {α β : Type} {x : Step α} {f : α → Step β} {c : Console} {P R : α → Console → Prop}
  {Q : β → Console → Prop} {E E' : Fault → Prop} {a : α} {fault : Fault}

theorem ends_pure (h : P a c) : Ends (pure a) c P E := .inl ⟨a, c, rfl, h⟩

theorem ends_throw (h : E fault) : Ends (throw fault : Step α) c P E := .inr ⟨fault, c, rfl, h⟩

theorem Ends.bind (hx : Ends x c P E) (hf : ∀ a after, P a after → Ends (f a) after Q E) :
    Ends (x >>= f) c Q E := by
  rcases hx with ⟨a, after, hrun, ha⟩ | ⟨fault, after, hrun, hfault⟩
  · rcases hf a after ha with ⟨b, last, hlast, hb⟩ | ⟨fault, last, hlast, hfault⟩
    · exact .inl ⟨b, last, by rw [bind_run, hrun]; exact hlast, hb⟩
    · exact .inr ⟨fault, last, by rw [bind_run, hrun]; exact hlast, hfault⟩
  · exact .inr ⟨fault, after, by rw [bind_run, hrun], hfault⟩

theorem Ends.mono (hx : Ends x c P E) (hP : ∀ a after, P a after → R a after)
    (hE : ∀ fault, E fault → E' fault) : Ends x c R E' := by
  rcases hx with ⟨a, after, hrun, ha⟩ | ⟨fault, after, hrun, hfault⟩
  · exact .inl ⟨a, after, hrun, hP a after ha⟩
  · exact .inr ⟨fault, after, hrun, hE fault hfault⟩

/-- A sequence of which nothing is asked before its last step. -/
theorem Ends.seq (hx : Ends x c P E) (hf : ∀ a after, Ends (f a) after Q E) :
    Ends (x >>= f) c Q E := hx.bind fun a after _ => hf a after

/-- A step that may be left out, and of which nothing is asked. -/
theorem Ends.whenSeq {p : Prop} [Decidable p] {y : Step β} (hx : Ends x c P E)
    (hy : ∀ after, Ends y after Q E) : Ends (if p then x >>= fun _ => y else y) c Q E := by
  split
  · exact hx.seq fun _ => hy
  · exact hy _

/-- What a step says of the console is read off it. -/
theorem ends_get_bind {f : Console → Step β} (h : Ends (f c) c Q E) : Ends (get >>= f) c Q E := h

theorem ends_modify {g : Console → Console} {P : Unit → Console → Prop} (h : P () (g c)) :
    Ends (modify g) c P E := .inl ⟨(), g c, rfl, h⟩

theorem ends_lift {r : Except Fault α} (hok : ∀ a, r = .ok a → P a c)
    (herror : ∀ fault, r = .error fault → E fault) : Ends (Step.lift r) c P E := by
  cases r with
  | error fault => exact .inr ⟨fault, c, rfl, herror fault rfl⟩
  | ok a => exact .inl ⟨a, c, rfl, hok a rfl⟩

end Rules

/-! ## What is shown -/

section Shown

variable {c : Console} {E : Fault → Prop} {line : String}

theorem ends_print : Ends (Step.print line) c
    (fun _ after => after = { c with output := c.output ++ line ++ "\n" }) E := ends_modify rfl

theorem ends_printError : Ends (Step.printError line) c
    (fun _ after => after = { c with errors := c.errors ++ line ++ "\n" }) E := ends_modify rfl

end Shown

/-! ## The log -/

/-- Nothing but the log and what is shown among the errors has changed. -/
structure OnlyLogged (c after : Console) : Prop where
  files : after.files = c.files
  output : after.output = c.output
  errors : ∃ more, after.errors = c.errors ++ more

variable {c c' c'' : Console} {E : Fault → Prop}

theorem OnlyLogged.refl : OnlyLogged c c := ⟨rfl, rfl, "", String.append_empty.symm⟩

theorem OnlyLogged.trans (h : OnlyLogged c c') (h' : OnlyLogged c' c'') : OnlyLogged c c'' := by
  obtain ⟨more, hmore⟩ := h.errors
  obtain ⟨more', hmore'⟩ := h'.errors
  refine ⟨h'.files.trans h.files, h'.output.trans h.output, more ++ more', ?_⟩
  rw [hmore', hmore, String.append_assoc]

theorem ends_note {entry : LogEntry} :
    Ends (Step.note entry) c (fun _ after => OnlyLogged c after) E := by
  unfold Step.note
  refine ends_get_bind ?_
  split
  · refine (ends_modify (P := fun _ after => OnlyLogged c after) ⟨rfl, rfl, "", ?_⟩).bind ?_
    · exact String.append_empty.symm
    · rintro _ after hafter
      split
      · refine ends_printError.mono (fun _ next hnext => ?_) fun _ h => h
        subst hnext
        exact hafter.trans ⟨rfl, rfl, entry.message ++ "\n", String.append_assoc⟩
      · exact ends_pure hafter
  · exact ends_pure .refl

theorem ends_notes {entries : List LogEntry} :
    Ends (entries.forM Step.note) c (fun _ after => OnlyLogged c after) E := by
  induction entries generalizing c with
  | nil => exact ends_pure .refl
  | cons entry entries ih =>
    rw [List.forM_eq_forM, List.forM_cons, ← List.forM_eq_forM]
    refine ends_note.bind fun _ after hafter => ih.mono (fun _ _ h => hafter.trans h) fun _ h => h

/-! ## Snapshots -/

section Snapshots

variable {hash : String} {snapshot : TreePath}

theorem ends_write {p : TreePath} {text : String} : Ends (Step.write p text) c
    (fun _ after => ∃ files, c.files.write p text = .ok files ∧ after = { c with files })
    fun fault => c.files.write p text = .error fault := by
  unfold Step.write
  refine ends_get_bind (Ends.bind (P := fun files after => after = c ∧
    c.files.write p text = .ok files) ?_ ?_)
  · exact ends_lift (fun _ hwrite => ⟨rfl, hwrite⟩) fun _ hwrite => hwrite
  · rintro files _ ⟨rfl, hwrite⟩
    exact ends_modify ⟨files, hwrite, rfl⟩

theorem ends_updateSnapshot : Ends (updateSnapshot hash snapshot) c
    (fun _ after => c.files.write snapshot (hash ++ "\n") = .ok after.files)
    fun fault => c.files.write snapshot (hash ++ "\n") = .error fault := by
  unfold updateSnapshot
  refine ends_write.bind ?_
  rintro _ _ ⟨files, hwrite, rfl⟩
  refine ends_note.bind fun _ after hlogged => ends_print.mono ?_ fun _ h => h
  rintro _ _ rfl
  rw [hwrite]
  exact congrArg Except.ok hlogged.files.symm

/-- Without a snapshot the check fails; with one it tells whether the digests are the same. -/
theorem ends_checkSnapshot : Ends (checkSnapshot hash snapshot) c
    (fun status after => after.files = c.files ∧
      if c.files.holds snapshot then ∃ text, c.files.read snapshot = .ok text ∧
        status = if hash = Text.strip text then none else some mismatch
      else status = some failure)
    fun fault => c.files.read snapshot = .error fault := by
  unfold checkSnapshot
  refine ends_get_bind ?_
  dsimp only
  cases hholds : c.files.holds snapshot with
  | false =>
    rw [if_pos (by decide)]
    refine ends_printError.bind ?_
    rintro _ _ rfl
    exact ends_pure ⟨rfl, rfl⟩
  | true =>
    rw [if_neg (by decide)]
    refine Ends.bind (ends_lift (P := fun text after => after = c ∧
      c.files.read snapshot = .ok text) (fun text hread => ⟨rfl, hread⟩) fun fault hread => hread) ?_
    rintro text after ⟨rfl, hread⟩
    by_cases hsame : hash = Text.strip text
    · rw [if_neg (by simpa using hsame)]
      refine ends_print.bind ?_
      rintro _ _ rfl
      exact ends_pure ⟨rfl, text, hread, (if_pos hsame).symm⟩
    · rw [if_pos (by simpa using hsame)]
      refine ends_printError.bind ?_
      rintro _ _ rfl
      exact ends_pure ⟨rfl, text, hread, (if_neg hsame).symm⟩

end Snapshots

/-! ## The document -/

section Perform

variable {catalogue : Catalogue} {env : Environment} {args : Arguments} {document : Value}
  {hash : String} {fault : Fault} {P : Nat → Console → Prop}

/-- A document comes with its digest. -/
theorem digest_of_build (hbuild : (build catalogue env args).1 = .ok (document, hash)) :
    Document.digest document = .ok hash := by
  unfold build at hbuild
  split at hbuild
  · cases hbuild
  · exact (Document.buildWithDigest_eq_ok_iff.mp hbuild).2

/-- Where the document can be built, the command ends as its publication does. -/
theorem ends_perform_of_ok (hbuild : (build catalogue env args).1 = .ok (document, hash))
    (hpublish : ∀ after, OnlyLogged c after → Ends (publish args document hash) after P E) :
    Ends (perform catalogue env args) c P E := by
  unfold perform
  generalize build catalogue env args = built at hbuild ⊢
  obtain ⟨outcome, log⟩ := built
  cases hbuild
  exact ends_notes.bind fun _ after hlogged => hpublish after hlogged

/-- Where it cannot be built, the command reports that, or fails as the build did. -/
theorem ends_perform_of_error (hbuild : (build catalogue env args).1 = .error fault)
    (hreport : ∀ after, OnlyLogged c after → fault.isBuildFailure = true → P failure
      { after with errors := after.errors ++ ("Cannot build spec: " ++ fault.message) ++ "\n" })
    (hfail : fault.isBuildFailure = false → E fault) : Ends (perform catalogue env args) c P E := by
  unfold perform
  generalize build catalogue env args = built at hbuild ⊢
  obtain ⟨outcome, log⟩ := built
  cases hbuild
  refine ends_notes.bind fun _ after hlogged => ?_
  dsimp only
  split
  · rename_i hfailure
    refine ends_printError.bind ?_
    rintro _ _ rfl
    exact ends_pure (hreport after hlogged hfailure)
  · rename_i hother
    exact ends_throw (hfail (Bool.not_eq_true _ ▸ hother))

end Perform

/-! ## Whole runs -/

/-- A catalogue of one source finds it under its name. -/
theorem find_app {listing : Listing} :
    Catalogue.find [("app", [("Source", listing)])] "app:Source" = .ok listing := by
  simp [Catalogue.find, Catalogue.findModule, OrderedMap.get?, pure, Except.pure, bind, Except.bind]

theorem exists_threshold (env : Environment) : ∃ threshold, thresholdOf env = .ok threshold :=
  ⟨_, rfl⟩

section Runs

variable {catalogue : Catalogue} {env : Environment} {files : FileTree} {words : List String}
  {args : Arguments} {P : Nat → Console → Prop}

/-- A command line that is refused does not finish. -/
theorem parse_of_run {status : Nat} {after : Console}
    (hrun : run catalogue env files words = (.finished status, after)) :
    ∃ args, Arguments.parse words = .ok args := by
  unfold run at hrun
  cases hparse : Arguments.parse words with
  | error reason =>
    rw [hparse] at hrun
    cases hrun
  | ok args => exact ⟨args, rfl⟩

/-- A command line that is accepted ends as the steps do that it stands for. -/
theorem run_of_ends (hparse : Arguments.parse words = .ok args)
    (h : ∀ threshold, Ends (perform catalogue env args) { files, threshold } P E) :
    (∃ status after, run catalogue env files words = (.finished status, after) ∧ P status after) ∨
      ∃ fault after, run catalogue env files words = (.failed fault, after) ∧ E fault := by
  obtain ⟨threshold, hthreshold⟩ := exists_threshold env
  unfold run
  rw [hparse, hthreshold]
  dsimp only
  rcases h threshold with ⟨status, after, hrun, hstatus⟩ | ⟨fault, after, hrun, hfault⟩
  · exact .inl ⟨status, after, by rw [hrun], hstatus⟩
  · exact .inr ⟨fault, after, by rw [hrun], hfault⟩

end Runs

end Command

end WireShape
