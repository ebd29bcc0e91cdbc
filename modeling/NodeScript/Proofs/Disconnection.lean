import NodeScript.Proofs.Connection

/-!
What becomes of a program whose host goes away: it ends with the first request that is not heard, and up to there
nothing is different.
-/

namespace NodeScript.Script

namespace Dialog

variable {α β : Type}

inductive Breaks : Dialog (Except RuntimeError α × Machine) → Prop where
  | done (result : Except RuntimeError α × Machine) : Breaks (.done result)
  | exhausted : Breaks .exhausted
  | ask {request : Request} {resume : Reply → Dialog (Except RuntimeError α × Machine)} {m : Machine}
      (hgone : resume .disconnected = .done (.error .disconnected, m))
      (h : ∀ text, Breaks (resume (.answer text)))
    : Breaks (.ask request resume)

theorem Breaks.bind {d : Dialog (Except RuntimeError α × Machine)}
    {f : Except RuntimeError α × Machine → Dialog (Except RuntimeError β × Machine)} (h : d.Breaks)
    (hfailed : ∀ m, ∃ m', f (.error .disconnected, m) = .done (.error .disconnected, m'))
    (hnext : ∀ result, (f result).Breaks) : (d.bind f).Breaks := by
  induction h with
  | done result => apply hnext
  | exhausted => exact .exhausted
  | @ask request resume m hgone _ ih =>
    obtain ⟨m', hm'⟩ := hfailed m
    refine .ask (m := m') ?_ ih
    rw [hgone]
    exact hm'

end Dialog

theorem Host.exists_reply (request : Request) (answers : List String)
    : ∃ text answers', Host.reply ⟨answers, none⟩ request = (.answer text, ⟨answers', none⟩)
        ∧ ∀ k, Host.reply ⟨answers, some (k + 1)⟩ request = (.answer text, ⟨answers', some k⟩) := by
  cases request with
  | prompt message => exact ⟨answers.head?.getD "", answers.tail, rfl, fun _ => rfl⟩
  | log text | enter node | update name value => exact ⟨"", answers, rfl, fun _ => rfl⟩

theorem Dialog.play_ask {α : Type} {host host' : Host} {request : Request} {text : String} (resume : Reply → Dialog α)
    (h : host.reply request = (.answer text, host'))
    : (ask request resume).play host =
      let rest := (resume (.answer text)).play host'
      ⟨request :: rest.requests, rest.result, rest.host⟩ := by
  have hhears : host.hears = true := by
    unfold Host.hears
    unfold Host.reply at h
    split at h
    · cases h
    · next hbudget => exact decide_eq_true hbudget
  rw [play, h, hhears]
  rfl

structure Transcript.IsCut {α : Type} (k : Nat) (whole cut : Transcript (Except RuntimeError α × Machine)) : Prop where
  requests : cut.requests = whole.requests.take k
  result : ∃ m, cut.result = if whole.requests.length ≤ k then whole.result else some (.error .disconnected, m)

theorem Dialog.Breaks.isCut {α : Type} {d : Dialog (Except RuntimeError α × Machine)} (h : d.Breaks)
    (answers : List String) (k : Nat) : (d.play ⟨answers, none⟩).IsCut k (d.play ⟨answers, some k⟩) := by
  induction h generalizing answers k with
  | done result => exact ⟨List.take_nil.symm, result.2, (if_pos (Nat.zero_le k)).symm⟩
  | exhausted => exact ⟨List.take_nil.symm, .start none 0, (if_pos (Nat.zero_le k)).symm⟩
  | @ask request resume m hgone _ ih =>
    obtain ⟨text, answers', hreply, hreplies⟩ := Host.exists_reply request answers
    rw [play_ask resume hreply]
    cases k with
    | zero =>
      -- Nothing is heard any more, and the failure is all that is left.
      change Transcript.IsCut 0 _ ((resume .disconnected).play ⟨answers, some 0⟩)
      rw [hgone]
      exact ⟨rfl, m, rfl⟩
    | succ k =>
      obtain ⟨hrequests, m', hresult⟩ := ih text answers' k
      rw [play_ask resume (hreplies k)]
      refine ⟨congrArg (request :: ·) hrequests, m', ?_⟩
      simp only [List.length_cons, Nat.succ_le_succ_iff]
      exact hresult

namespace Exec

variable {α β : Type}

def Breaks (x : Exec α) : Prop :=
  ∀ m, (x m).Breaks

namespace Breaks

theorem pure (a : α) : Breaks (Pure.pure a : Exec α) := fun _ => .done _

theorem fail (e : RuntimeError) : Breaks (fail e : Exec α) := fun _ => .done _

theorem get : Breaks get := fun _ => .done _

theorem modify (f : Machine → Machine) : Breaks (modify f) := fun _ => .done _

theorem ask (request : Request) : Breaks (ask request) := fun _ => .ask rfl fun _ => .done _

theorem ofExcept (x : Except RuntimeError α) : Breaks (ofExcept x) := by
  cases x with
  | ok a => apply pure
  | error e => apply fail

theorem bind {x : Exec α} {f : α → Exec β} (h : Breaks x) (hnext : ∀ a, Breaks (f a)) : Breaks (x >>= f) := by
  intro m
  apply (h m).bind
  · intro m'
    exact ⟨m', rfl⟩
  · rintro ⟨e | a, m'⟩
    · exact .done _
    · exact hnext a m'

theorem closing {x : Exec α} (h : Breaks x) (f : Machine → Machine) : Breaks (x.closing f) := by
  intro m
  apply (h m).bind
  · intro m'
    exact ⟨f m', rfl⟩
  · intro result
    exact .done _

end Breaks

theorem relates_breaks : Relates fun _ x _ => Breaks x where
  exhausted _ := fun _ => .exhausted
  pure := .pure
  bind := .bind
  fail _ := .fail _
  ask := .ask
  lookup? _ := .bind .get fun _ => .pure _
  callee _ _ _ h := .bind .get fun _ => h _
  assign _ _ := .modify _
  declare _ _ := .bind .get fun _ => .bind (.ofExcept _) fun _ => .modify _
  define _ _ := .modify _
  mathCall name args := by
    apply Breaks.bind .get
    intro m
    split
    · exact .bind (.modify _) fun _ => .pure _
    · apply Breaks.fail
  descend h := by
    intro m
    unfold descend
    split
    · exact .done _
    · apply h.closing
  inScope h := fun _ => h.closing _ _
  calling params args _ _ h := by
    intro m
    unfold calling
    split
    · exact .done _
    · split
      · exact .done _
      · apply h.closing

end Exec

theorem Dialog.Results.of_play_answers {α : Type} {P : α → Prop} {d : Dialog α} (h : d.Results (· ≠ .disconnected) P)
    (answers : List String) {a : α} (hresult : (d.play ⟨answers, none⟩).result = some a) : P a := by
  induction h generalizing answers with
  | done h =>
    cases hresult
    exact h
  | exhausted => exact nomatch hresult
  | @ask request resume _ ih =>
    obtain ⟨text, answers', hreply, -⟩ := Host.exists_reply request answers
    apply ih (.answer text) nofun answers'
    rw [play_ask resume hreply] at hresult
    exact hresult

/-- A host that goes away after `k` requests hears the first `k` of those that it would hear otherwise. If there are
more, the program fails for want of a host; if not, it comes to what it would come to otherwise, which is no such
failure. -/
theorem Exec.cut_run (bound : Nat) (program : Program) (m : Machine) (answers : List String) (k : Nat)
    : let whole := (run bound program m).play ⟨answers, none⟩
      let cut := (run bound program m).play ⟨answers, some k⟩
      cut.requests = whole.requests.take (min k whole.requests.length) ∧ (∃ after, cut.result =
          if whole.requests.length ≤ k then whole.result else some (.error .disconnected, after))
        ∧ whole.result.map Prod.fst ≠ some (.error .disconnected) := by
  intro whole cut
  obtain ⟨hrequests, hresult⟩ := (relates_breaks.run bound program m).isCut answers k
  refine ⟨?_, hresult, ?_⟩
  · rw [List.take_eq_take_min] at hrequests
    exact hrequests
  · intro hfailed
    obtain ⟨result, hwhole, hfirst⟩ := Option.map_eq_some_iff.mp hfailed
    exact (relates_steady.run bound program m).of_play_answers answers hwhole hfirst

end NodeScript.Script
