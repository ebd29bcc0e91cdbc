import NodeScript.Script.Session

/-!
Dialogs side by side: when a host cannot tell two of them apart, up to where one is given up.
-/

namespace NodeScript.Script

namespace Dialog

variable {α β γ δ : Type}

theorem bind_assoc (d : Dialog α) (f : α → Dialog β) (g : β → Dialog γ)
    : (d.bind f).bind g = d.bind fun a => (f a).bind g := by
  induction d with
  | done => rfl
  | exhausted => rfl
  | ask request resume ih => exact congrArg (ask request) (funext ih)

/-- The dialogs ask the same and end in related results. The left one may be given up if `p`, the right
one if `q`. -/
inductive Matches (p q : Prop) (rel : α → β → Prop) : Dialog α → Dialog β → Prop where
  | left (h : p) (d : Dialog β) : Matches p q rel .exhausted d
  | right (h : q) (d : Dialog α) : Matches p q rel d .exhausted
  | done {a : α} {b : β} (h : rel a b) : Matches p q rel (.done a) (.done b)
  | ask {request : Request} {resume : Reply → Dialog α} {resume' : Reply → Dialog β}
    (h : ∀ reply, Matches p q rel (resume reply) (resume' reply)) :
    Matches p q rel (.ask request resume) (.ask request resume')

namespace Matches

variable {p q : Prop} {rel : α → β → Prop} {d : Dialog α} {d' : Dialog β}

theorem bind {rel' : γ → δ → Prop} {f : α → Dialog γ} {g : β → Dialog δ} (h : Matches p q rel d d')
    (hnext : ∀ a b, rel a b → Matches p q rel' (f a) (g b))
    : Matches p q rel' (d.bind f) (d'.bind g) := by
  induction h with
  | left h => exact .left h _
  | right h => exact .right h _
  | done h => exact hnext _ _ h
  | ask _ ih => exact .ask ih

theorem mono {rel' : α → β → Prop} (h : Matches p q rel d d') (hrel : ∀ a b, rel a b → rel' a b)
    : Matches p q rel' d d' := by
  induction h with
  | left h => exact .left h _
  | right h => exact .right h _
  | done h => exact .done (hrel _ _ h)
  | ask _ ih => exact .ask ih

theorem bind_left {rel' : γ → β → Prop} {f : α → Dialog γ} (h : Matches p q rel d d')
    (hnext : ∀ a b, rel a b → Matches p q rel' (f a) (.done b)) : Matches p q rel' (d.bind f) d' := by
  induction h with
  | left h => exact .left h _
  | right h => exact .right h _
  | done h => exact hnext _ _ h
  | ask _ ih => exact .ask ih

theorem symm (h : Matches p q rel d d') : Matches q p (fun b a => rel a b) d' d := by
  induction h with
  | left h => exact .right h _
  | right h => exact .left h _
  | done h => exact .done h
  | ask _ ih => exact .ask ih

theorem play (h : Matches True False rel d d') (host : Host) : (d.play host).requests <+: (d'.play host).requests
        ∧ ∀ a, (d.play host).result = some a → (d'.play host).requests = (d.play host).requests
            ∧ ∃ b, (d'.play host).result = some b ∧ rel a b := by
  induction h generalizing host with
  | left => exact ⟨List.nil_prefix, nofun⟩
  | right h => exact h.elim
  | @done a b h =>
    refine ⟨List.prefix_rfl, ?_⟩
    rintro _ ⟨⟩
    exact ⟨rfl, b, rfl, h⟩
  | @ask request resume resume' _ ih =>
    obtain ⟨hrequests, hresult⟩ := ih (host.reply request).1 (host.reply request).2
    rw [Dialog.play, Dialog.play]
    dsimp only
    split
    · refine ⟨(List.prefix_cons_inj request).mpr hrequests, ?_⟩
      intro a ha
      obtain ⟨heq, hb⟩ := hresult a ha
      exact ⟨congrArg (request :: ·) heq, hb⟩
    · exact ⟨hrequests, hresult⟩

end Matches

theorem result_unique {d : Nat → Dialog α}
    (h : ∀ bound bound', bound ≤ bound' → (d bound).Matches True False Eq (d bound'))
    {host : Host} {bound bound' : Nat} {result result' : α} (hresult : ((d bound).play host).result = some result)
    (hresult' : ((d bound').play host).result = some result') : result = result' := by
  obtain hle | hle := Nat.le_total bound bound'
  · obtain ⟨-, b, hb, rfl⟩ := ((h bound bound' hle).play host).2 result hresult
    exact Option.some.inj (hb.symm.trans hresult')
  · obtain ⟨-, b, hb, rfl⟩ := ((h bound' bound hle).play host).2 result' hresult'
    exact Option.some.inj (hresult.symm.trans hb)

/-- All results to which the allowed replies lead satisfy `P`. -/
inductive Results (allowed : Reply → Prop) (P : α → Prop) : Dialog α → Prop where
  | done {a : α} (h : P a) : Results allowed P (.done a)
  | exhausted : Results allowed P .exhausted
  | ask {request : Request} {resume : Reply → Dialog α}
    (h : ∀ reply, allowed reply → Results allowed P (resume reply)) : Results allowed P (.ask request resume)

namespace Results

variable {allowed : Reply → Prop} {P : α → Prop} {d : Dialog α}

theorem bind {Q : β → Prop} {f : α → Dialog β} (h : Results allowed P d)
    (hnext : ∀ a, P a → Results allowed Q (f a)) : Results allowed Q (d.bind f) := by
  induction h with
  | done h => exact hnext _ h
  | exhausted => exact .exhausted
  | ask _ ih => exact .ask ih

theorem mono {Q : α → Prop} (h : Results allowed P d) (hPQ : ∀ a, P a → Q a) : Results allowed Q d := by
  induction h with
  | done h => exact .done (hPQ _ h)
  | exhausted => exact .exhausted
  | ask _ ih => exact .ask ih

theorem of_play (h : Results (fun _ => True) P d) (host : Host) {a : α}
    (hresult : (d.play host).result = some a) : P a := by
  induction h generalizing host with
  | done h =>
    cases hresult
    exact h
  | exhausted => exact nomatch hresult
  | @ask request _ _ ih =>
    refine ih (host.reply request).1 trivial (host.reply request).2 ?_
    rw [Dialog.play] at hresult
    dsimp only at hresult
    split at hresult
    all_goals exact hresult

end Results

inductive Leads : Dialog α → List Reply → α → Prop where
  | done (a : α) : Leads (.done a) [] a
  | ask {request : Request} {resume : Reply → Dialog α} (reply : Reply) {replies : List Reply} {a : α}
      (h : Leads (resume reply) replies a)
    : Leads (.ask request resume) (reply :: replies) a

theorem Leads.bind {d : Dialog α} {f : α → Dialog β} {replies replies' : List Reply} {a : α} {b : β}
    (h : d.Leads replies a) (hnext : (f a).Leads replies' b) : (d.bind f).Leads (replies ++ replies') b := by
  induction h with
  | done => exact hnext
  | ask reply _ ih => exact .ask reply (ih hnext)

theorem Leads.of_bind {d : Dialog α} {f : α → Dialog β} {replies : List Reply} {b : β} (h : (d.bind f).Leads replies b)
    : ∃ a replies₁ replies₂, d.Leads replies₁ a ∧ (f a).Leads replies₂ b := by
  induction d generalizing replies with
  | done a => exact ⟨a, [], replies, .done a, h⟩
  | exhausted => cases h
  | ask request resume ih =>
    cases h with
    | ask reply h =>
      obtain ⟨a, replies₁, replies₂, ha, hb⟩ := ih reply h
      exact ⟨a, reply :: replies₁, replies₂, .ask reply ha, hb⟩

theorem Results.of_leads {P : α → Prop} {d : Dialog α} (h : Results (fun _ => True) P d) {replies : List Reply} {a : α}
    (hleads : d.Leads replies a) : P a := by
  induction hleads with
  | done =>
    cases h with
    | done h => exact h
  | ask reply _ ih =>
    cases h with
    | ask h => exact ih (h reply trivial)

inductive Always (asks : Request → Prop) (P : α → Prop) : Dialog α → Prop where
  | done {a : α} (h : P a) : Always asks P (.done a)
  | exhausted : Always asks P .exhausted
  | ask {request : Request} {resume : Reply → Dialog α} (hrequest : asks request)
      (h : ∀ reply, Always asks P (resume reply))
    : Always asks P (.ask request resume)

namespace Always

variable {asks : Request → Prop} {P : α → Prop} {d : Dialog α}

theorem bind_leads {Q : β → Prop} {f : α → Dialog β} (h : d.Always asks P)
    (hnext : ∀ a replies, d.Leads replies a → P a → (f a).Always asks Q) : (d.bind f).Always asks Q := by
  induction h with
  | done h => exact hnext _ [] (.done _) h
  | exhausted => exact .exhausted
  | ask hrequest _ ih =>
    exact .ask hrequest fun reply => ih reply fun a replies hleads => hnext a (reply :: replies) (.ask reply hleads)

theorem bind {Q : β → Prop} {f : α → Dialog β} (h : d.Always asks P) (hnext : ∀ a, P a → (f a).Always asks Q)
    : (d.bind f).Always asks Q :=
  h.bind_leads fun a _ _ => hnext a

theorem play (h : d.Always asks P) (host : Host)
    : (∀ request ∈ (d.play host).requests, asks request) ∧ ∀ a, (d.play host).result = some a → P a := by
  induction h generalizing host with
  | done h =>
    refine ⟨nofun, ?_⟩
    rintro _ ⟨⟩
    exact h
  | exhausted => exact ⟨nofun, nofun⟩
  | @ask request resume hrequest _ ih =>
    obtain ⟨hrequests, hresult⟩ := ih (host.reply request).1 (host.reply request).2
    rw [Dialog.play]
    dsimp only
    split
    · exact ⟨List.forall_mem_cons.mpr ⟨hrequest, hrequests⟩, hresult⟩
    · exact ⟨hrequests, hresult⟩

end Always

def Says (d : Nat → Dialog α) (host : Host) (requests : List Request) : Prop :=
  ∃ bound, requests <+: ((d bound).play host).requests

def EndsIn (d : Nat → Dialog α) (host : Host) (requests : List Request) (result : α) : Prop :=
  ∃ bound, ((d bound).play host).requests = requests ∧ ((d bound).play host).result = some result

/-- No host can tell the dialogs apart, if they are not given up. -/
def Equivalent (d d' : Nat → Dialog α) : Prop :=
  ∀ host, (∀ requests, Says d host requests ↔ Says d' host requests)
    ∧ ∀ requests result, EndsIn d host requests result ↔ EndsIn d' host requests result

theorem equivalent_of_matches {d d' : Nat → Dialog α}
    (h : ∀ bound, ∃ bound', Matches True False Eq (d bound) (d' bound'))
    (h' : ∀ bound, ∃ bound', Matches True False Eq (d' bound) (d bound')) : Equivalent d d' := by
  have hspoken : ∀ {d d' : Nat → Dialog α}, (∀ bound, ∃ bound', Matches True False Eq (d bound) (d' bound'))
      → ∀ {host requests}, Says d host requests → Says d' host requests := by
    rintro d d' h host requests ⟨bound, hrequests⟩
    obtain ⟨bound', hmatches⟩ := h bound
    exact ⟨bound', hrequests.trans (hmatches.play host).1⟩
  have hends : ∀ {d d' : Nat → Dialog α}, (∀ bound, ∃ bound', Matches True False Eq (d bound) (d' bound'))
      → ∀ {host requests result}, EndsIn d host requests result → EndsIn d' host requests result := by
    rintro d d' h host requests result ⟨bound, hrequests, hresult⟩
    obtain ⟨bound', hmatches⟩ := h bound
    obtain ⟨heq, _, hresult', rfl⟩ := (hmatches.play host).2 result hresult
    exact ⟨bound', heq.trans hrequests, hresult'⟩
  exact fun host => ⟨fun _ => ⟨hspoken h, hspoken h'⟩, fun _ _ => ⟨hends h, hends h'⟩⟩

end Dialog

/-! ### Evaluating dialogs

Numbers cannot be told apart by evaluation, and so neither can all requests and errors. Those without numbers can.
-/

def Request.isSame : Request → Request → Bool
  | .log text, .log text' => text == text'
  | .prompt text, .prompt text' => text == text'
  | .enter node, .enter node' => node == node'
  | _, _ => false

theorem Request.eq_of_isSame {request request' : Request} (h : request.isSame request') : request = request' := by
  cases request <;> cases request' <;> simp_all [isSame]

theorem Request.eq_of_isEqv {requests requests' : List Request} (h : requests.isEqv requests' isSame)
    : requests = requests' := by
  induction requests generalizing requests' with
  | nil =>
    cases requests' with
    | nil => rfl
    | cons => cases h
  | cons request requests ih =>
    cases requests' with
    | nil => cases h
    | cons request' requests' =>
      obtain ⟨hsame, hrest⟩ := Bool.and_eq_true_iff.mp h
      rw [eq_of_isSame hsame, ih hrest]

def RuntimeError.isSame : RuntimeError → RuntimeError → Bool
  | .undefinedName name, .undefinedName name' => name == name'
  | .notAFunction name, .notAFunction name' => name == name'
  | .redeclared name, .redeclared name' => name == name'
  | .stackOverflow, .stackOverflow => true
  | _, _ => false

theorem RuntimeError.eq_of_isSame {e e' : RuntimeError} (h : e.isSame e') : e = e' := by
  cases e <;> cases e' <;> simp_all [isSame]

namespace Dialog

def isFailure (e : RuntimeError) : Option (Except RuntimeError Unit) → Bool
  | some (.error e') => e'.isSame e
  | _ => false

theorem eq_of_isFailure {e : RuntimeError} {result : Option (Except RuntimeError Unit)} (h : isFailure e result)
    : result = some (.error e) := by
  obtain _ | e' | _ := result
  · cases h
  · rw [RuntimeError.eq_of_isSame h]
  · cases h

def isSuccess : Option (Except RuntimeError Unit) → Bool
  | some (.ok _) => true
  | _ => false

theorem eq_of_isSuccess {result : Option (Except RuntimeError Unit)} (h : isSuccess result)
    : result = some (.ok ()) := by
  obtain _ | _ | _ := result
  · cases h
  · cases h
  · rfl

end Dialog

end NodeScript.Script
