import NodeScript.Proofs.Dialogs

/-!
Dialogs side by side, one of which gives notice to its host and the other does not: when what is logged and
asked is the same.
-/

namespace NodeScript.Script

def Request.isSpoken : Request → Bool
  | log _ | prompt _ => true
  | enter _ | update _ _ => false

def Transcript.spoken {α : Type} (transcript : Transcript α) : List Request :=
  transcript.requests.filter Request.isSpoken

namespace Dialog

variable {α β γ δ : Type}

/-- Where the host answers, the dialogs ask the same but for notices of the left one, and end in related
results. The left one may be given up if `p`, the right one if `q`, and all is well if the left one ends in
a result that is excused. -/
inductive Quiets (p q : Prop) (excused : α → Prop) (rel : α → β → Prop) : Dialog α → Dialog β → Prop where
  | left (h : p) (d' : Dialog β) : Quiets p q excused rel .exhausted d'
  | right (h : q) (d : Dialog α) : Quiets p q excused rel d .exhausted
  | excused {a : α} (h : excused a) (d' : Dialog β) : Quiets p q excused rel (.done a) d'
  | done {a : α} {b : β} (h : rel a b) : Quiets p q excused rel (.done a) (.done b)
  | notice {request : Request} {resume : Reply → Dialog α} {d' : Dialog β} (hrequest : request.isSpoken = false)
      (h : ∀ text, Quiets p q excused rel (resume (.answer text)) d')
    : Quiets p q excused rel (.ask request resume) d'
  | ask {request : Request} {resume : Reply → Dialog α} {resume' : Reply → Dialog β}
      (h : ∀ text, Quiets p q excused rel (resume (.answer text)) (resume' (.answer text)))
    : Quiets p q excused rel (.ask request resume) (.ask request resume')

theorem exists_play_ask (request : Request) (answers : List String)
    : ∃ text answers', (request.isSpoken = false → answers' = answers) ∧ ∀ {α : Type} (resume : Reply → Dialog α),
          ((ask request resume).play ⟨answers, none⟩).spoken
            = [request].filter Request.isSpoken ++ ((resume (.answer text)).play ⟨answers', none⟩).spoken
          ∧ ((ask request resume).play ⟨answers, none⟩).result
            = ((resume (.answer text)).play ⟨answers', none⟩).result := by
  cases request with
  | prompt message => exact ⟨answers.head?.getD "", answers.tail, by simp [Request.isSpoken], fun _ => ⟨rfl, rfl⟩⟩
  | log text | enter node | update name value => exact ⟨"", answers, fun _ => rfl, fun _ => ⟨rfl, rfl⟩⟩

namespace Quiets

variable {p q : Prop} {excused : α → Prop} {rel : α → β → Prop} {d : Dialog α} {d' : Dialog β}

theorem bind {excused' : γ → Prop} {rel' : γ → δ → Prop} {f : α → Dialog γ} {g : β → Dialog δ}
    (h : Quiets p q excused rel d d') (hexcused : ∀ a, excused a → ∀ d', Quiets p q excused' rel' (f a) d')
    (hnext : ∀ a b, rel a b → Quiets p q excused' rel' (f a) (g b))
    : Quiets p q excused' rel' (d.bind f) (d'.bind g) := by
  induction h with
  | left h => exact .left h _
  | right h => exact .right h _
  | excused h => exact hexcused _ h _
  | done h => exact hnext _ _ h
  | notice hrequest _ ih => exact .notice hrequest ih
  | ask _ ih => exact .ask ih

theorem and_results {P : α → Prop} (h : Quiets p q excused rel d d') (hresults : d.Results (fun _ => True) P)
    : Quiets p q excused (fun a b => rel a b ∧ P a) d d' := by
  induction h with
  | left h => exact .left h _
  | right h => exact .right h _
  | excused h => exact .excused h _
  | done h =>
    cases hresults with
    | done hP => exact .done ⟨h, hP⟩
  | notice hrequest _ ih =>
    cases hresults with
    | ask hresume => exact .notice hrequest fun text => ih text (hresume _ trivial)
  | ask _ ih =>
    cases hresults with
    | ask hresume => exact .ask fun text => ih text (hresume _ trivial)

theorem heard (h : Quiets p q excused rel d d') (answers : List String)
    : let left := d.play ⟨answers, none⟩
      let right := d'.play ⟨answers, none⟩
      (p ∧ left.result = none ∧ left.spoken <+: right.spoken) ∨ (q ∧ right.result = none ∧ right.spoken <+: left.spoken)
        ∨ (∃ a, left.result = some a ∧ excused a ∧ left.spoken <+: right.spoken)
        ∨ ∃ a b, left.result = some a ∧ right.result = some b ∧ rel a b ∧ left.spoken = right.spoken := by
  induction h generalizing answers with
  | left h => exact .inl ⟨h, rfl, List.nil_prefix⟩
  | right h => exact .inr (.inl ⟨h, rfl, List.nil_prefix⟩)
  | excused h => exact .inr (.inr (.inl ⟨_, rfl, h, List.nil_prefix⟩))
  | done h => exact .inr (.inr (.inr ⟨_, _, rfl, rfl, h, rfl⟩))
  | @notice request resume d' hrequest _ ih =>
    obtain ⟨text, answers', hanswers, hplay⟩ := exists_play_ask request answers
    rw [hanswers hrequest] at hplay
    have hsilent : [request].filter Request.isSpoken = [] := by simp [hrequest]
    simp only [(hplay resume).1, (hplay resume).2, hsilent, List.nil_append]
    exact ih text answers
  | @ask request resume resume' _ ih =>
    obtain ⟨text, answers', -, hplay⟩ := exists_play_ask request answers
    simp only [hplay, List.prefix_append_right_inj, List.append_cancel_left_eq]
    exact ih text answers'

end Quiets

/-- With some bound the host hears these requests that are no notices, and maybe others after them. -/
def Speaks (d : Nat → Dialog α) (host : Host) (spoken : List Request) : Prop :=
  ∃ bound, spoken <+: ((d bound).play host).spoken

/-- With some bound the host hears these requests that are no notices, and then the dialog ends. -/
def Concludes (d : Nat → Dialog α) (host : Host) (spoken : List Request) (result : α) : Prop :=
  ∃ bound, ((d bound).play host).spoken = spoken ∧ ((d bound).play host).result = some result

def Covers (d d' : Nat → Dialog α) (host : Host) : Prop :=
  ∀ bound, ∃ bound', ((d bound).play host).spoken <+: ((d' bound').play host).spoken
    ∧ ∀ result, ((d bound).play host).result = some result
      → ((d' bound').play host).spoken = ((d bound).play host).spoken ∧ ((d' bound').play host).result = some result

theorem Covers.refl (d : Nat → Dialog α) (host : Host) : Covers d d host :=
  fun bound => ⟨bound, List.prefix_rfl, fun _ h => ⟨rfl, h⟩⟩

section Covers

variable {d d' : Nat → Dialog α} {host : Host} {spoken : List Request} (h : Covers d d' host)
include h

theorem Covers.speaks (hspeaks : Speaks d host spoken) : Speaks d' host spoken := by
  obtain ⟨bound, hspoken⟩ := hspeaks
  obtain ⟨bound', hprefix, -⟩ := h bound
  exact ⟨bound', hspoken.trans hprefix⟩

theorem Covers.concludes {result : α} (hconcludes : Concludes d host spoken result)
    : Concludes d' host spoken result := by
  obtain ⟨bound, hspoken, hresult⟩ := hconcludes
  obtain ⟨bound', -, hend⟩ := h bound
  obtain ⟨hspoken', hresult'⟩ := hend result hresult
  exact ⟨bound', hspoken'.trans hspoken, hresult'⟩

end Covers

theorem covers_of_quiets {excused : α → Prop} {d d' : Nat → Dialog α}
    (h : ∀ bound, ∃ bound', Quiets True False excused Eq (d bound) (d' bound'))
    (h' : ∀ bound', ∃ bound, Quiets False True excused Eq (d bound) (d' bound')) {answers : List String}
    (hexcused : ∀ spoken result, Concludes d ⟨answers, none⟩ spoken result → ¬ excused result)
    : Covers d d' ⟨answers, none⟩ ∧ Covers d' d ⟨answers, none⟩ := by
  constructor
  · intro bound
    obtain ⟨bound', hquiets⟩ := h bound
    refine ⟨bound', ?_⟩
    obtain ⟨-, hresult, hspoken⟩ | ⟨hfalse, -⟩ | ⟨a, hresult, ha, -⟩ | ⟨a, b, hresult, hresult', rfl, hspoken⟩ :=
      hquiets.heard answers
    · exact ⟨hspoken, fun _ hsome => absurd (hresult.symm.trans hsome) (Option.some_ne_none _).symm⟩
    · exact hfalse.elim
    · exact absurd ha (hexcused _ a ⟨bound, rfl, hresult⟩)
    · exact ⟨hspoken ▸ List.prefix_rfl, fun result hsome => ⟨hspoken.symm, by rw [hresult', ← hresult, hsome]⟩⟩
  · intro bound'
    obtain ⟨bound, hquiets⟩ := h' bound'
    refine ⟨bound, ?_⟩
    obtain ⟨hfalse, -⟩ | ⟨-, hresult, hspoken⟩ | ⟨a, hresult, ha, -⟩ | ⟨a, b, hresult, hresult', rfl, hspoken⟩ :=
      hquiets.heard answers
    · exact hfalse.elim
    · exact ⟨hspoken, fun _ hsome => absurd (hresult.symm.trans hsome) (Option.some_ne_none _).symm⟩
    · exact absurd ha (hexcused _ a ⟨bound, rfl, hresult⟩)
    · exact ⟨hspoken ▸ List.prefix_rfl, fun result hsome => ⟨hspoken, by rw [hresult, ← hresult', hsome]⟩⟩

end Dialog

end NodeScript.Script
