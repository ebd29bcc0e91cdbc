import NodeScript.Proofs.Build
import NodeScript.Proofs.ControlPaths

/-!
A walk writes down what its tour comes to, each node once, and each arm that is left out as one
diagnostic and one comment.
-/

namespace NodeScript.Compile

open List

mutual

def Item.notes : Item → Nat
  | .line .nestingTooDeep => 1
  | .line _ => 0
  | .ifElse _ thenItems elseItems => notesOf thenItems + notesOf elseItems
  | .whileLoop _ body => notesOf body
  | .forLoop _ _ _ _ body => notesOf body

def notesOf : List Item → Nat
  | [] => 0
  | item :: rest => item.notes + notesOf rest

end

mutual

def Item.dropNotes : Item → List Item
  | .line .nestingTooDeep => []
  | .line line => [.line line]
  | .ifElse cond thenItems elseItems =>
    [.ifElse cond (dropNotesOf thenItems) (dropNotesOf elseItems)]
  | .whileLoop cond body => [.whileLoop cond (dropNotesOf body)]
  | .forLoop name start limit step body => [.forLoop name start limit step (dropNotesOf body)]

def dropNotesOf : List Item → List Item
  | [] => []
  | item :: rest => item.dropNotes ++ dropNotesOf rest

end

def Flat (items : List Item) : Prop :=
  ∀ item ∈ items, ∃ line, item = .line line ∧ line ≠ .nestingTooDeep

namespace Flat

variable {items items' : List Item}

theorem nil : Flat [] := by simp [Flat]

theorem single {line : Line} (h : line ≠ .nestingTooDeep) : Flat [.line line] := by
  simpa [Flat] using h

theorem append (h : Flat items) (h' : Flat items') : Flat (items ++ items') := by
  intro item hitem
  cases mem_append.mp hitem with
  | inl hmem => exact h item hmem
  | inr hmem => exact h' item hmem

end Flat

namespace Build

variable (r : Routine) (node : Node)

end Build

def Tour.uncut : Tour → Tour
  | stop => stop
  | cut _ => stop
  | pass node rest => pass node rest.uncut
  | last node => last node
  | branch node onTrue onFalse => branch node onTrue.uncut onFalse.uncut
  | loop node body rest => loop node body.uncut rest.uncut

namespace Tour

variable (node : Node)

end Tour

def Diagnostic.isNesting : Diagnostic → Bool
  | nestingTooDeep _ => true
  | _ => false

structure Tally (added : List Diagnostic) (cuts : String → Nat) (notes : Nat) : Prop where
  count : ∀ id, added.count (.nestingTooDeep id) = cuts id
  total : added.countP Diagnostic.isNesting = notes

namespace Tally

variable {added added' : List Diagnostic} {cuts cuts' : String → Nat} {notes notes' : Nat}

theorem append (h : Tally added cuts notes) (h' : Tally added' cuts' notes')
    : Tally (added ++ added') (fun id => cuts id + cuts' id) (notes + notes') := by
  constructor
  · intro id
    rw [count_append, h.count, h'.count]
  · rw [countP_append, h.total, h'.total]

end Tally

namespace Build

variable (r : Routine)

end Build

end NodeScript.Compile
