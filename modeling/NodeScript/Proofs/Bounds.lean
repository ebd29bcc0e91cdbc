import NodeScript.Proofs.Congruence
import NodeScript.Proofs.Dialogs

/-!
The bound on steps decides only when a run is given up. With a larger one the run goes on as before, so
there is at most one way in which it ends.
-/

namespace NodeScript.Script

theorem Dialog.Matches.refl {α : Type} (d : Dialog α) : d.Matches True False Eq d := by
  induction d with
  | done a => exact .done rfl
  | exhausted => exact .left trivial _
  | ask request resume ih => exact .ask ih

namespace Exec

variable {α β : Type}

def Extends (α : Type) (x y : Exec α) : Prop :=
  ∀ m, (x m).Matches True False Eq (y m)

namespace Extends

theorem refl (x : Exec α) : Extends α x x :=
  fun m => .refl (x m)

theorem bind {x y : Exec α} {f g : α → Exec β} (h : Extends α x y) (hnext : ∀ a, Extends β (f a) (g a))
    : Extends β (x >>= f) (y >>= g) := by
  intro m
  refine (h m).bind ?_
  rintro ⟨e | a, m'⟩ _ rfl
  · exact .done rfl
  · exact hnext a m'

theorem closing {x y : Exec α} (h : Extends α x y) (f : Machine → Machine) : Extends α (x.closing f) (y.closing f) := by
  intro m
  refine (h m).bind ?_
  rintro result _ rfl
  exact .done rfl

end Extends

theorem relates_extends : Relates Extends where
  exhausted _ := fun _ => .left trivial _
  pure _ := .refl _
  bind := Extends.bind
  fail _ := .refl _
  ask _ := .refl _
  lookup? _ := .refl _
  callee _ _ _ h := .bind (.refl get) fun _ => h _
  assign _ _ := .refl _
  declare _ _ := .refl _
  define _ _ := .refl _
  mathCall _ _ := .refl _
  descend h := by
    intro m
    unfold descend
    split
    · exact .refl _
    · exact h.closing _ _
  inScope h := fun _ => h.closing _ _
  calling params args _ _ h := by
    intro m
    unfold calling
    split
    · exact .refl _
    · split
      · exact .refl _
      · exact h.closing _ _

end Exec

end NodeScript.Script
