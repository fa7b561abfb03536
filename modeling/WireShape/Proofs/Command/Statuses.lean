import WireShape.Proofs.Command.Files
import WireShape.Proofs.Command.Steps
import WireShape.Proofs.Json.Layouts

/-!
# Statuses of the command

A document with a digest can be written to a file, for its other texts exist where the one of the
digest does. So once a document has been built, the command ends with a status, or fails as the
operating system does. Where none could be built, the status says so if the cause is one of those that
the command reports. The others pass it by: an accessor that the source does not provide, a value that
cannot be used as such, a missing key.

* `Command.ends_publish`: what is done with a document.
* `Command.run_status`: how a run ends, by the outcome of the build.
-/

namespace WireShape

namespace Command

variable {catalogue : Catalogue} {env : Environment} {files : FileTree} {words : List String}
  {args : Arguments} {document : Value} {hash out : String} {c : Console}

/-- The statuses that are documented. -/
def statuses : List Nat := [success, mismatch, failure]

/-- A document with a digest has a text in each layout. -/
theorem exists_text (layout : Json.Layout) (hdigest : Document.digest document = .ok hash) :
    ∃ text, Json.write layout Json.refuse document = .ok text := by
  obtain ⟨text, htext, _⟩ := bind_eq_ok_iff.mp hdigest
  exact Json.writeAt_layout document htext

theorem ends_writeDocument (hdigest : Document.digest document = .ok hash) :
    Ends (writeDocument document out) c (fun _ _ => True) Fault.IsFileFault := by
  obtain ⟨text, htext⟩ := exists_text Json.indented hdigest
  obtain ⟨line, hline⟩ := exists_text Json.spaced hdigest
  unfold writeDocument
  rw [htext, hline]
  refine ends_get_bind (Ends.seq (P := fun _ _ => True) ?_ fun files after => ?_)
  · exact ends_lift (fun _ _ => trivial) fun _ => FileTree.isFileFault_of_makeDirectory
  · refine Ends.seq (ends_modify (P := fun _ _ => True) trivial) fun _ after => ?_
    refine Ends.seq (P := fun _ _ => True) (ends_lift (fun _ _ => trivial) nofun) fun _ after => ?_
    refine (ends_write.mono (fun _ _ h => h) fun _ => FileTree.isFileFault_of_write).seq fun _ after => ?_
    refine Ends.seq (P := fun _ _ => True) (ends_lift (fun _ _ => trivial) nofun) fun _ after => ?_
    exact ends_print.mono (fun _ _ _ => trivial) fun _ h => h

/-- With a document and its digest the command ends with a status or as the operating system fails. -/
theorem ends_publish (hdigest : Document.digest document = .ok hash) :
    Ends (publish args document hash) c (fun status _ => status ∈ statuses) Fault.IsFileFault := by
  have hshow : ∀ c, Ends (do
      if (args.out.getD "").isEmpty && !args.updateHash && !args.check then Step.print hash
      return success) c (fun status _ => status ∈ statuses) Fault.IsFileFault := fun c =>
    ends_print.whenSeq fun _ => ends_pure (by decide)
  have hupdate : ∀ c, Ends (do
      if args.updateHash then updateSnapshot hash (TreePath.parse args.snapshot)
      if (args.out.getD "").isEmpty && !args.updateHash && !args.check then Step.print hash
      return success) c (fun status _ => status ∈ statuses) Fault.IsFileFault := fun c =>
    (ends_updateSnapshot.mono (fun _ _ h => h) fun _ => FileTree.isFileFault_of_write).whenSeq hshow
  unfold publish
  refine (ends_writeDocument hdigest).whenSeq fun after => ?_
  dsimp only
  split
  · refine (ends_checkSnapshot.mono (fun _ _ h => h) fun _ => FileTree.isFileFault_of_read).bind ?_
    rintro answer last ⟨_, hanswer⟩
    cases answer with
    | none => exact hupdate last
    | some status =>
      refine ends_pure ?_
      split at hanswer
      · obtain ⟨_, _, hanswer⟩ := hanswer
        split at hanswer <;> cases hanswer
        decide
      · cases hanswer
        decide
  · exact hupdate after

/-- Nothing has been written but the cause, at the end of the errors. -/
structure ReportsFailure (files : FileTree) (fault : Fault) (after : Console) : Prop where
  files : after.files = files
  output : after.output = ""
  errors : ∃ shown, after.errors = shown ++ ("Cannot build spec: " ++ fault.message) ++ "\n"

/-- A command line that is accepted ends by the outcome of the build. With a document it ends with a
status, or as the operating system fails. Without one it ends with the status of a failure and reports
the cause, if that is one of those that are reported, and otherwise fails of the cause itself. -/
theorem run_status (hparse : Arguments.parse words = .ok args) :
    (∃ document hash, (build catalogue env args).1 = .ok (document, hash) ∧
      ((∃ status after, run catalogue env files words = (.finished status, after) ∧
          status ∈ statuses) ∨
        ∃ fault after, run catalogue env files words = (.failed fault, after) ∧
          fault.IsFileFault)) ∨
    (∃ fault, (build catalogue env args).1 = .error fault ∧ fault.isBuildFailure = true ∧
      ∃ after, run catalogue env files words = (.finished failure, after) ∧
        ReportsFailure files fault after) ∨
    ∃ fault, (build catalogue env args).1 = .error fault ∧ fault.isBuildFailure = false ∧
      ∃ after, run catalogue env files words = (.failed fault, after) := by
  cases hbuild : (build catalogue env args).1 with
  | ok built =>
    obtain ⟨document, hash⟩ := built
    refine .inl ⟨document, hash, rfl, run_of_ends hparse fun _ => ?_⟩
    exact ends_perform_of_ok hbuild fun _ _ => ends_publish (digest_of_build hbuild)
  | error fault =>
    refine .inr ?_
    have hends : ∀ threshold, Ends (perform catalogue env args) { files, threshold }
        (fun status after => fault.isBuildFailure = true ∧ status = failure ∧
          ReportsFailure files fault after)
        fun cause => fault.isBuildFailure = false ∧ cause = fault := by
      intro threshold
      refine ends_perform_of_error hbuild (fun after hlogged hreported => ⟨hreported, rfl, ?_⟩)
        fun hother => ⟨hother, rfl⟩
      exact ⟨hlogged.files, hlogged.output, _, rfl⟩
    rcases run_of_ends hparse hends with
      ⟨_, after, hrun, hreported, rfl, hafter⟩ | ⟨_, after, hrun, hother, rfl⟩
    · exact .inl ⟨fault, rfl, hreported, after, hrun, hafter⟩
    · exact .inr ⟨_, rfl, hother, after, hrun⟩

/-- A source whose tag has no name. -/
def namelessSource : Source where
  tag := some (.ofFields [])
  schemas := some (.ofFields [])
  parameters := some (.ofFields [])
  routes := some []

theorem run_status_nameless :
    Arguments.parse ["app:Source"] = .ok { source := "app:Source" } ∧
    ∃ after, run [("app", [("Source", ⟨{}, namelessSource⟩)])] [] {} ["app:Source"] =
        (.finished failure, after) ∧ ReportsFailure {} (.namelessTag "Source") after := by
  have hparse : Arguments.parse ["app:Source"] = .ok { source := "app:Source" } := rfl
  have hbuild : (build [("app", [("Source", ⟨{}, namelessSource⟩)])] []
      { source := "app:Source" }).1 = .error (.namelessTag "Source") := by
    unfold build
    rw [find_app]
    rfl
  refine ⟨hparse, ?_⟩
  rcases @run_status _ [] {} _ _ hparse with ⟨_, _, hok, _⟩ | ⟨_, herror, _, hafter⟩ |
    ⟨_, herror, hother, _⟩
  · cases hbuild.symm.trans hok
  · cases hbuild.symm.trans herror
    exact hafter
  · cases hbuild.symm.trans herror
    cases hother

/-- The cause of a run that fails. -/
def Ending.fault? : Ending → Option Fault
  | failed fault => some fault
  | _ => none

/-- A source that does not provide its schemas, and one with bytes in its tag, fail of themselves. -/
theorem run_unreported :
    Arguments.parse ["app:Source"] = .ok { source := "app:Source" } ∧
    (run [("app", [("Source", ⟨{}, {}⟩)])] [] {} ["app:Source"]).1.fault? =
      some (.notProvided .schemas) ∧
    (run [("app", [("Source", ⟨{}, { namelessSource with tag := some (.ofFields
      [("name", .str "Marks"), ("x-mark", .bytes [255])]) }⟩)])] [] {} ["app:Source"]).1.fault? =
        some (.notSerializable "bytes") := by
  exact ⟨rfl, by decide +kernel, by decide +kernel⟩

end Command

end WireShape
