import WireShape.Proofs.Rules

/-!
# What is written to the log

Computations only ever add to the log, also when they fail. A walk adds nothing but notes that a
component has been registered; the steps of a registry add notes about names, and a warning about
parameters with several keys.

* `Adds`: computations that add only entries with a property.
* `Walk.quiet_rules`: walks add entries of the lowest level only.
* `LogEntry.isUndeclared`: the notes that a parameter is not declared.
* `Registry.quiet_rules`: the steps of a registry add no such note.
-/

namespace WireShape

open Value (Fields)

/-- A computation that adds to the log only entries with a property, whether it succeeds or not. -/
def Adds {σ α : Type} (log : σ → Array LogEntry) (P : LogEntry → Prop)
    (x : ExceptT Fault (StateM σ) α) : Prop :=
  ∀ s, ∃ more, (log (x s).2).toList = (log s).toList ++ more ∧ ∀ e ∈ more, P e

namespace Adds

variable {σ α β : Type} {log : σ → Array LogEntry} {P Q : LogEntry → Prop}
  {x : ExceptT Fault (StateM σ) α} {f : α → ExceptT Fault (StateM σ) β}

/-- What keeps the log as it is adds nothing. -/
theorem of_eq (h : ∀ s, log (x s).2 = log s) : Adds log P x :=
  fun s => ⟨[], by rw [h, List.append_nil], fun _ he => by cases he⟩

theorem pure {a : α} : Adds log P (Pure.pure a : ExceptT Fault (StateM σ) α) := of_eq fun _ => rfl

theorem throw {fault : Fault} : Adds log P (MonadExcept.throw fault : ExceptT Fault (StateM σ) α) :=
  of_eq fun _ => rfl

theorem get : Adds log P (MonadState.get : ExceptT Fault (StateM σ) σ) := of_eq fun _ => rfl

theorem of_modify {g : σ → σ} (h : ∀ s, log (g s) = log s) :
    Adds log P (modify g : ExceptT Fault (StateM σ) Unit) := of_eq h

theorem bind (hx : Adds log P x) (hf : ∀ a, Adds log P (f a)) : Adds log P (x >>= f) := by
  intro s
  obtain ⟨first, hfirst, hfirstP⟩ := hx s
  rw [bind_run]
  cases hrun : x s with
  | mk outcome t =>
    rw [hrun] at hfirst
    cases outcome with
    | error fault => exact ⟨first, hfirst, hfirstP⟩
    | ok a =>
      obtain ⟨later, hlater, hlaterP⟩ := hf a t
      refine ⟨first ++ later, ?_, fun e he => ?_⟩
      · dsimp only
        rw [hlater, hfirst, List.append_assoc]
      · exact (List.mem_append.mp he).elim (hfirstP e) (hlaterP e)

theorem compositional : Compositional fun {_} step => Adds log P step :=
  ⟨fun _ => pure, fun _ => throw, bind⟩

end Adds

/-! ## Walks -/

/-- An entry of the lowest level. -/
def LogEntry.IsDebug (e : LogEntry) : Prop := e.level = .debug

/-- A walk that adds only entries of the lowest level. -/
abbrev Walk.Quiet {α : Type} (walk : Walk α) : Prop := Adds Context.log LogEntry.IsDebug walk

theorem Walk.quiet_register {h : Heap} {bucket name : Atom} {schema : Value} :
    (Walk.register h.describe bucket name schema).Quiet := by
  refine .bind Adds.compositional.lift fun _ => .bind Adds.compositional.lift fun _ => fun ctx => ?_
  exact ⟨[_], Array.toList_push, fun e he => by rw [List.mem_singleton.mp he]; rfl⟩

theorem Walk.quiet_atPosition {α : Type} {s : Schema} {kind : String} {step : Walk α}
    (hstep : step.Quiet) : (Walk.atPosition s kind step).Quiet := by
  cases s with
  | object => exact hstep
  | node id =>
    intro ctx
    change ∃ more, ((Walk.onPath id kind step ctx).2.log).toList = _ ∧ _
    unfold Walk.onPath
    split
    · exact ⟨[], (List.append_nil _).symm, fun _ he => by cases he⟩
    · exact hstep (ctx.enter id)

/-- Walks add entries of the lowest level only. -/
theorem Walk.quiet_rules {h : Heap} : Walk.Rules h fun {_} walk => walk.Quiet where
  toCompositional := Adds.compositional
  register _ _ _ := Walk.quiet_register
  atPosition _ _ _ hstep := Walk.quiet_atPosition hstep
  read _ hf := .bind .get hf

/-! ## Parameters that are not declared -/

/-- How the note ends that a parameter is not declared. -/
def undeclaredEnding : String := " is not declared; referencing it by key"

/-- The note that a parameter is not declared, with the method and the path of the operation. -/
def undeclaredNote (key method path : String) : LogEntry :=
  ⟨.warning, "Parameter " ++ key ++ " on " ++ method ++ " " ++ path ++ undeclaredEnding⟩

/-- Whether an entry notes that a parameter is not declared. -/
def LogEntry.isUndeclared (e : LogEntry) : Bool :=
  e.level == .warning && undeclaredEnding.toList.isSuffixOf e.message.toList

theorem isUndeclared_undeclaredNote {key method path : String} :
    (undeclaredNote key method path).isUndeclared = true := by
  unfold LogEntry.isUndeclared undeclaredNote
  rw [String.toList_append]
  simp only [beq_self_eq_true, Bool.true_and, List.isSuffixOf_iff_suffix]
  exact List.suffix_append _ _

/-- A message with another ending of at most the same length. -/
theorem not_isUndeclared_of_ending {level : LogLevel} {start ending : String}
    (hlength : ending.toList.length ≤ undeclaredEnding.toList.length)
    (hother : ending.toList.isSuffixOf undeclaredEnding.toList = false) :
    (LogEntry.mk level (start ++ ending)).isUndeclared = false := by
  unfold LogEntry.isUndeclared
  rw [Bool.and_eq_false_iff]
  refine .inr (Bool.eq_false_iff.mpr fun hsuffix => ?_)
  rw [List.isSuffixOf_iff_suffix, String.toList_append] at hsuffix
  have hending := List.suffix_of_suffix_length_le (List.suffix_append _ _) hsuffix hlength
  rw [← List.isSuffixOf_iff_suffix, hother] at hending
  cases hending

theorem LogEntry.IsDebug.not_isUndeclared {e : LogEntry} (he : e.IsDebug) :
    e.isUndeclared = false := by
  unfold LogEntry.isUndeclared
  rw [he]
  rfl

/-! ## Steps of the registry -/

namespace Registry

/-- A step that notes no parameter as not declared. -/
abbrev Quiet {α : Type} (step : Registering α) : Prop :=
  Adds Registry.log (fun e => e.isUndeclared = false) step

theorem quiet_addLog {level : LogLevel} {message : String}
    (hentry : (LogEntry.mk level message).isUndeclared = false) : Quiet (addLog level message) :=
  fun _ => ⟨[_], Array.toList_push, fun e he => by rw [List.mem_singleton.mp he]; exact hentry⟩

theorem quiet_addLogFrom {level : LogLevel} {message : Except Fault String}
    (hentry : ∀ text, message = .ok text → (LogEntry.mk level text).isUndeclared = false) :
    Quiet (addLogFrom level message) := by
  cases message with
  | error => exact .pure
  | ok text => exact quiet_addLog (hentry text rfl)

theorem quiet_bind {v : Value} {name : Atom} : Quiet (Registry.bind v name) := by
  unfold Registry.bind
  split
  · exact .of_modify fun _ => rfl
  · exact .pure

theorem quiet_openBucket {bucket : Atom} : Quiet (openBucket bucket) := by
  refine .of_modify fun reg => ?_
  split <;> rfl

/-- A warning about a parameter with several keys is none about one that is not declared. -/
theorem quiet_severalKeys {start : String} {shown : Except Fault String} :
    Quiet (addLogFrom .warning (do return start ++ (← shown) ++ " is documented")) := by
  refine quiet_addLogFrom fun text htext => ?_
  obtain ⟨_, _, heq⟩ := bind_eq_ok_iff.mp htext
  cases heq
  exact not_isUndeclared_of_ending (by decide) (by decide)

theorem quiet_basic {h : Heap} : Rules h fun {_} step => Quiet step where
  toCompositional := Adds.compositional
  define _ _ _ := .of_modify fun _ => rfl
  remember _ _ := quiet_bind
  bindShape _ _ := .of_modify fun _ => rfl
  openBucket _ := quiet_openBucket
  read _ hf := .bind .get hf
  debug _ := quiet_addLogFrom fun _ _ => LogEntry.IsDebug.not_isUndeclared rfl
  severalKeys _ _ := quiet_severalKeys

theorem quiet_runWalk {h : Heap} {walk : Walk Compiled} (hwalk : walk.Quiet) :
    Quiet (runWalk h walk) := by
  refine .bind .get fun reg => .bind (fun later => ?_) fun _ => .bind Adds.compositional.lift
    fun _ => .bind quiet_basic.merge fun _ => .pure
  obtain ⟨more, hlog, hmore⟩ := hwalk { known := reg.components }
  refine ⟨more, ?_, fun e he => (hmore e he).not_isUndeclared⟩
  change (later.log ++ (walk { known := reg.components }).2.log).toList = _
  rw [Array.toList_append, hlog]
  rfl

/-- The steps of a registry note no parameter as not declared. -/
theorem quiet_rules {h : Heap} : WalkRules h fun {_} step => Quiet step where
  toRules := quiet_basic
  compile _ := quiet_runWalk Walk.quiet_rules.compile
  compileSchema _ := quiet_runWalk Walk.quiet_rules.compileSchema

end Registry

end WireShape
