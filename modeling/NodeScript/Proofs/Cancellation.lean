import NodeScript.Proofs.Histories

/-!
A run that is cancelled, or in whose place another one is started, fades away. However its tasks go on until they
are dropped, nothing more is heard of it, and what follows is what would follow if there had never been such a run.
-/

namespace NodeScript

open List Script

namespace Run

/-- What is left of an action where the first runs are missing. -/
def Action.beyond (count : Nat) : Action → Option Action
  | .answer number text => if number < count then none else some (.answer (number - count) text)
  | .turn number task => if number < count then none else some (.turn (number - count) task)
  | action => some action

namespace Executor

/-- The executor with earlier runs in front of its own. -/
def behind (executor : Executor) (earlier : List Run) : Executor :=
  { executor with past := earlier ++ executor.past }

/-- What `f` makes of one of the runs, with the phase that is published then. -/
def touch (f : Run → Option (Run × Option Phase)) (executor : Executor) (number : Nat) : Executor :=
  if number = executor.past.length then
    match executor.active.bind f with
    | some (run, change) => { executor with active := some run, phase := run.publish executor.phase change }
    | none => executor
  else
    match executor.past[number]?.bind f with
    | some (run, change) =>
      { executor with past := executor.past.set number run, phase := run.publish executor.phase change }
    | none => executor

theorem turn_eq_touch [Generator] (bound : Nat) (executor : Executor) (number : Nat) (task : Task)
    : executor.turn bound number task = executor.touch (·.step? bound task) number := by
  unfold turn touch
  split
  · cases hactive : executor.active with
    | none => rw [step?, hactive]; rfl
    | some run =>
      rw [step?_of_active hactive, Option.bind_some]
      cases run.step? bound task <;> rfl
  · rfl

theorem answerTo_eq_touch (executor : Executor) (number : Nat) (text : String)
    : executor.answerTo number text = executor.touch (fun run => (run.answer? text).map (·, none)) number := by
  have hpublish (run : Run) : run.publish executor.phase none = executor.phase := ite_self _
  unfold answerTo answer touch
  split
  · cases executor.active with
    | none => rfl
    | some run => cases h : run.answer? text <;> simp [h, hpublish]
  · cases executor.past[number]? with
    | none => rfl
    | some run => cases h : run.answer? text <;> simp [h, hpublish]

section Behind

variable {bound : Nat} {earlier : List Run} (hearlier : ∀ run ∈ earlier, run.cancelled = true) (executor : Executor)

theorem cancel_behind (earlier : List Run) (executor : Executor)
    : (executor.behind earlier).cancel = executor.cancel.behind earlier := by
  obtain ⟨phase, past, active⟩ := executor
  cases active with
  | none => rfl
  | some run => simp [cancel, behind]

theorem advance_behind (earlier : List Run) (executor : Executor)
    : (executor.behind earlier).advance.2 = executor.advance.2.behind earlier := by
  obtain ⟨phase, past, active⟩ := executor
  cases active with
  | none => rfl
  | some run =>
    unfold advance behind
    dsimp only
    split <;> rfl

include hearlier

theorem set_behind {number : Nat} {run run' : Run} (hrun : earlier[number]? = some run) (hfades : run.Fades run')
    : ∃ earlier', earlier'.length = earlier.length ∧ (∀ run ∈ earlier', run.cancelled = true)
        ∧ { executor.behind earlier with past := (executor.behind earlier).past.set number run' } =
          executor.behind earlier' := by
  have hlt := (List.getElem?_eq_some_iff.mp hrun).1
  refine ⟨earlier.set number run', length_set, fun run hmem => ?_, ?_⟩
  · obtain hmem | rfl := mem_or_eq_of_mem_set hmem
    · exact hearlier run hmem
    · exact hfades.cancelled.trans (hearlier _ (mem_of_getElem? hrun))
  · rw [behind, behind, set_append_left _ _ hlt]

/-- Only an earlier run is touched, or one of the executor's own. -/
theorem touch_behind {f : Run → Option (Run × Option Phase)}
    (hf : ∀ run next, run.cancelled = true → f run = some next → run.Fades next.1) (number : Nat)
    : ∃ earlier', earlier'.length = earlier.length ∧ (∀ run ∈ earlier', run.cancelled = true)
        ∧ (executor.behind earlier).touch f number =
          (if number < earlier.length then executor else executor.touch f (number - earlier.length)).behind earlier' := by
  split
  · next hlt =>
    rw [touch, if_neg (by simp only [behind, length_append]; omega), behind, getElem?_append_left hlt]
    cases hrun : earlier[number]?.bind f with
    | none => exact ⟨earlier, rfl, hearlier, rfl⟩
    | some next =>
      obtain ⟨run, hget, hnext⟩ := Option.bind_eq_some_iff.mp hrun
      have hcancelled := hearlier run (mem_of_getElem? hget)
      have hfades := hf run next hcancelled hnext
      dsimp only
      rw [publish, hfades.cancelled, hcancelled, if_pos rfl]
      exact set_behind hearlier executor hget hfades
  · next hge =>
    obtain ⟨number, rfl⟩ := Nat.exists_eq_add_of_le (Nat.le_of_not_lt hge)
    refine ⟨earlier, rfl, hearlier, ?_⟩
    rw [Nat.add_sub_cancel_left, touch, touch]
    by_cases hnumber : number = executor.past.length
    · rw [if_pos (by simp [behind, hnumber]), if_pos hnumber]
      cases h : executor.active.bind f <;> simp [behind, h]
    · have hget : (executor.behind earlier).past[earlier.length + number]? = executor.past[number]? := by
        simp only [behind, getElem?_append_right (Nat.le_add_right _ _), Nat.add_sub_cancel_left]
      rw [if_neg (by simpa [behind] using hnumber), if_neg hnumber, hget]
      cases executor.past[number]?.bind f <;> simp [behind]

theorem act_behind [Generator] (action : Action)
    : ∃ earlier', earlier'.length = earlier.length ∧ (∀ run ∈ earlier', run.cancelled = true)
        ∧ (executor.behind earlier).act bound action =
          ((action.beyond earlier.length).elim executor (executor.act bound)).behind earlier' := by
  cases action with
  | start source options hasRuntime =>
    refine ⟨earlier, rfl, hearlier, ?_⟩
    cases hasRuntime with
    | false => rfl
    | true =>
      change { (executor.behind earlier).cancel with
        phase := .loading, active := some (Run.start source options) } = _
      rw [cancel_behind]
      rfl
  | cancel => exact ⟨earlier, rfl, hearlier, cancel_behind earlier executor⟩
  | advance => exact ⟨earlier, rfl, hearlier, advance_behind earlier executor⟩
  | answer number text =>
    have hfades (run : Run) (next : Run × Option Phase) (_ : run.cancelled = true)
        (h : (run.answer? text).map (·, none) = some next) : run.Fades next.1 := by
      obtain ⟨_, hanswer, rfl⟩ := Option.map_eq_some_iff.mp h
      exact fades_of_answer hanswer
    obtain ⟨earlier', hlength, hearlier', heq⟩ := touch_behind hearlier executor hfades number
    refine ⟨earlier', hlength, hearlier', ?_⟩
    rw [act, answerTo_eq_touch, heq, Action.beyond]
    split
    · rfl
    · rw [Option.elim_some, act, answerTo_eq_touch]
  | turn number task =>
    obtain ⟨earlier', hlength, hearlier', heq⟩ :=
      touch_behind hearlier executor (fun _ _ => fades_of_step) number
    refine ⟨earlier', hlength, hearlier', ?_⟩
    rw [act, turn_eq_touch, heq, Action.beyond]
    split
    · rfl
    · rw [Option.elim_some, act, turn_eq_touch]

theorem acts_behind [Generator] (actions : List Action)
    : ∃ earlier', earlier'.length = earlier.length ∧ (executor.behind earlier).acts bound actions =
        (executor.acts bound (actions.filterMap (Action.beyond earlier.length))).behind earlier' := by
  induction actions generalizing executor earlier with
  | nil => exact ⟨earlier, rfl, rfl⟩
  | cons action rest ih =>
    obtain ⟨earlier₁, hlength₁, hearlier₁, hact⟩ := act_behind hearlier executor action
    obtain ⟨earlier₂, hlength₂, hacts⟩ :=
      ih hearlier₁ ((action.beyond earlier.length).elim executor (executor.act bound))
    refine ⟨earlier₂, hlength₂.trans hlength₁, ?_⟩
    change ((executor.behind earlier).act bound action).acts bound rest = _
    rw [hact, hacts, hlength₁]
    cases haction : action.beyond earlier.length with
    | none =>
      rw [filterMap_cons_none haction]
      rfl
    | some action' =>
      rw [filterMap_cons_some haction]
      rfl

end Behind

section Fading

variable {bound : Nat} {executor executor' : Executor} {action : Action} {number : Nat} {run : Run}

theorem Changes.fades (h : executor.Changes action executor') (hrun : executor.past[number]? = some run)
    : ∃ run', executor'.past[number]? = some run' ∧ run.Fades run' := by
  have hlt := (List.getElem?_eq_some_iff.mp hrun).1
  have hcancel : executor.cancel.past[number]? = some run := by
    cases hactive : executor.active with
    | none => rw [cancel_of_none hactive, hrun]
    | some active => rw [cancel_of_some hactive, getElem?_append_left hlt, hrun]
  cases h with
  | started _ _ | cancelled => exact ⟨run, hcancel, .refl run⟩
  | @answeredLate number' _ earlier run' hearlier hfades | @turnedLate number' _ earlier run' hearlier hfades =>
    rw [getElem?_set]
    split
    · rename_i heq
      subst heq
      rw [if_pos hlt]
      obtain rfl : earlier = run := Option.some.inj (hearlier.symm.trans hrun)
      exact ⟨run', rfl, hfades⟩
    · exact ⟨run, hrun, .refl run⟩
  | _ => exact ⟨run, hrun, .refl run⟩

variable [Generator] (h : executor.Coherent) (hrun : executor.past[number]? = some run)

include h hrun

theorem Coherent.fades (actions : List Action)
    : ∃ run', (executor.acts bound actions).past[number]? = some run' ∧ run.Fades run' := by
  induction actions generalizing executor run with
  | nil => exact ⟨run, hrun, .refl run⟩
  | cons action rest ih =>
    obtain ⟨run₁, hrun₁, hfades₁⟩ := (h.changes_act bound action).fades hrun
    obtain ⟨run₂, hrun₂, hfades₂⟩ := ih (h.act action) hrun₁
    exact ⟨run₂, hrun₂, hfades₁.trans hfades₂⟩

theorem Coherent.turn_dropHost
    : ∃ run', (executor.turn bound number .dropHost).past[number]? = some run' ∧ run'.host.outcome? ≠ none := by
  have hlt := (List.getElem?_eq_some_iff.mp hrun).1
  have hcancelled := (h.past run (mem_of_getElem? hrun)).cancelled
  rw [turn, if_neg (Nat.ne_of_lt hlt), hrun, Option.bind_some]
  cases hover : run.host.outcome? with
  | some outcome =>
    refine ⟨run, ?_, by simp [hover]⟩
    simp [Run.step?, HostTask.isOver, hover, hrun]
  | none =>
    refine ⟨{ run with host := .aborted }, ?_, by simp [HostTask.outcome?]⟩
    simp [Run.step?, HostTask.isOver, hover, hcancelled, hlt]

theorem Coherent.outcome?_of_dropHost {actions : List Action} (hdrop : .turn number .dropHost ∈ actions)
    : ∃ run', (executor.acts bound actions).past[number]? = some run' ∧ run'.host.outcome? ≠ none := by
  obtain ⟨pre, post, rfl⟩ := append_of_mem hdrop
  obtain ⟨run₁, hrun₁, -⟩ := h.fades hrun pre
  obtain ⟨run₂, hrun₂, hover⟩ := (h.acts pre).turn_dropHost hrun₁
  obtain ⟨run₃, hrun₃, hfades⟩ := ((h.acts pre).act (.turn number .dropHost)).fades hrun₂ post
  refine ⟨run₃, ?_, ?_⟩
  · rw [Executor.acts, foldl_append]
    exact hrun₃
  · obtain heq | ⟨hnone, -⟩ := hfades.outcome
    · rw [heq]
      exact hover
    · exact absurd hnone hover

end Fading

/-- A run that is cancelled, or replaced by another one, makes itself felt no more, whatever happens later and however
its tasks go on. What follows is what happens to an executor that has never had this run nor those before it, and
nothing more is heard of any of them. The run keeps its outcome, if it had one, and otherwise it is cancelled: its host
task ends like this if it ends, and it does so when it is dropped. If the run was over already then the published phase
stays as it is. -/
theorem isolated_of_cancel [Generator] {bound : Nat} {history : List Action} {run : Run} {next : Executor}
    (hactive : (after bound history).active = some run) (hnext : next = (after bound history).cancel
      ∨ ∃ source options, (after bound history).start source options true = .ok next) (later : List Action)
    : (∃ earlier run', next.acts bound later = (acts bound { next with past := [] }
            (later.filterMap (Action.beyond ((after bound history).past.length + 1)))).behind earlier
          ∧ earlier.map heard = (after bound history).past.map heard ++ [run.heard]
          ∧ earlier[(after bound history).past.length]? = some run'
          ∧ run'.outcome? = some (run.outcome?.getD .cancelled)
          ∧ (∀ outcome, run'.host.outcome? = some outcome → outcome = run.outcome?.getD .cancelled)
          ∧ (.turn (after bound history).past.length .dropHost ∈ later → run'.host.outcome?.isSome))
        ∧ (∀ source options, (after bound history).start source options true = .ok next
          → Executor.new.start source options true = .ok { next with past := [] })
        ∧ ∀ outcome, run.outcome? = some outcome
          → (outcome = .completed ∨ outcome = .errored) ∧ (after bound history).phase = outcome.phase
            ∧ (after bound history).cancel.phase = outcome.phase := by
  have hcoherent := coherent_after bound history
  generalize after bound history = before at hactive hnext hcoherent ⊢
  have hfits := hcoherent.active run hactive
  have hpast : next.past = before.past ++ [{ run with cancelled := true }] := by
    obtain rfl | ⟨source, options, hstart⟩ := hnext
    · rw [cancel_of_some hactive]
    · cases hstart
      rw [cancel_of_some hactive]
  have hlater : next.Coherent := by
    obtain rfl | ⟨source, options, hstart⟩ := hnext
    · exact hcoherent.cancel
    · cases hstart
      exact hcoherent.changes (.started source options)
  refine ⟨?_, ?_, ?_⟩
  · have hbehind : next = ({ next with past := [] } : Executor).behind next.past := by
      rw [behind, append_nil]
    have hlength : next.past.length = before.past.length + 1 := by
      rw [hpast, length_append, length_singleton]
    obtain ⟨earlier, hearlier, hacts⟩ := acts_behind (fun run hrun => (hlater.past run hrun).cancelled)
      { next with past := [] } later
    rw [← hbehind, hlength] at hacts
    have hget {number : Nat} {run₀ : Run} (hrun : next.past[number]? = some run₀)
        : (next.acts bound later).past[number]? = earlier[number]? := by
      rw [hacts, behind, getElem?_append_left (hearlier ▸ (List.getElem?_eq_some_iff.mp hrun).1)]
    have hrun : next.past[before.past.length]? = some { run with cancelled := true } := by
      rw [hpast, getElem?_concat_length]
    obtain ⟨run', hrun', hfades⟩ := hlater.fades hrun later
    have houtcome := hfades.outcome?_eq rfl
    rw [← hfits.outcome?_eq] at houtcome
    refine ⟨earlier, run', hacts, ?_, (hget hrun).symm.trans hrun', houtcome, ?_, ?_⟩
    · have hheard : earlier.map heard = next.past.map heard := by
        refine ext_getElem (by rw [length_map, length_map, hearlier]) fun number hlt hlt' => ?_
        rw [length_map] at hlt'
        obtain ⟨run₁, hrun₁, hfades₁⟩ := hlater.fades (getElem?_eq_getElem hlt') later
        rw [hget (getElem?_eq_getElem hlt'), List.getElem?_eq_some_iff] at hrun₁
        obtain ⟨_, rfl⟩ := hrun₁
        rw [getElem_map, getElem_map, hfades₁.heard]
      rw [hheard, hpast, map_append]
      rfl
    · intro outcome hover
      rw [outcome?, hover] at houtcome
      exact Option.some.inj houtcome
    · intro hdrop
      obtain ⟨run'', hrun'', hover⟩ := hlater.outcome?_of_dropHost hrun hdrop
      obtain rfl : run' = run'' := Option.some.inj (hrun'.symm.trans hrun'')
      exact Option.isSome_iff_ne_none.mpr hover
  · rintro source options ⟨⟩
    rfl
  · intro outcome houtcome
    obtain ⟨hphase, hended⟩ := finished_of_outcome hfits houtcome
    refine ⟨hended, hphase, ?_⟩
    rw [cancel_of_some hactive, HostTask.isOver, ← hfits.outcome?_eq, houtcome]
    exact hphase

def unusedPermit : List Action :=
  [.start "__onNode(1);" ⟨.manual, none, 64⟩ true, .turn 0 .sandbox, .turn 0 .host, .turn 0 .host, .advance]

theorem isolated_of_cancel_unusedPermit : ∃ run next, (after 20 unusedPermit).active = some run ∧ run.permits = 1
        ∧ (after 20 unusedPermit).start "__onNode(2);" ⟨.manual, none, 64⟩ true = .ok next
        ∧ ∀ later, ∃ run', next.acts 20 later = (acts 20 ⟨.loading, [], some (.start "__onNode(2);" ⟨.manual, none, 64⟩)⟩
              (later.filterMap (Action.beyond 1))).behind [run']
          ∧ run'.heard = run.heard ∧ run'.outcome? = some .cancelled
          ∧ (.turn 0 .dropHost ∈ later → run'.host.outcome?.isSome) := by
  have hbefore : ((after 20 unusedPermit).active.any (fun run => run.permits = 1 && run.outcome?.isNone)
      && (after 20 unusedPermit).past.isEmpty) = true := by
    decide +kernel
  rw [Bool.and_eq_true, Option.any_eq_true, List.isEmpty_iff] at hbefore
  obtain ⟨⟨run, hactive, hrun⟩, hpast⟩ := hbefore
  rw [Bool.and_eq_true, decide_eq_true_eq, Option.isNone_iff_eq_none] at hrun
  have hstart := fun later => isolated_of_cancel hactive (.inr ⟨"__onNode(2);", ⟨.manual, none, 64⟩, if_pos rfl⟩) later
  rw [hpast, hrun.2] at hstart
  refine ⟨run, _, hactive, hrun.1, if_pos rfl, fun later => ?_⟩
  obtain ⟨⟨earlier, run', hacts, hheard, hget, houtcome, -, hdrop⟩, -⟩ := hstart later
  obtain ⟨first, rfl, hfirst⟩ := map_eq_singleton_iff.mp hheard
  obtain rfl : first = run' := Option.some.inj hget
  exact ⟨first, hacts, hfirst, houtcome, hdrop⟩

end Executor

end Run

end NodeScript
