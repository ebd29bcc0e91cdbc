import NodeScript.Proofs.Dialogs
import NodeScript.Proofs.Tables

/-!
The fields of objects. A program reads the first field of a name, and its host sees the last one. They
are the same field unless the name stands twice, and only a literal can repeat a name.
-/

namespace NodeScript

def Json.field? : Json → String → Option Json
  | .obj fields, name => fields.lookup name
  | _, _ => none

namespace Script

variable {fields : List (String × Value)} {name : String} {value : Value}

namespace Value

theorem get?_fieldsToJson (seen : SortedTable Json) (fields : List (String × Value)) (name : String)
    : (fieldsToJson seen fields).get? name = ((fields.reverse.lookup name).map toJson).or (seen.get? name) := by
  induction fields generalizing seen with
  | nil => simp [fieldsToJson]
  | cons field rest ih =>
    obtain ⟨key, value⟩ := field
    rw [fieldsToJson, ih, SortedTable.get?_insert, List.reverse_cons, List.lookup_append, Table.lookup_cons]
    cases rest.reverse.lookup name with
    | some => rfl
    | none => split <;> simp

theorem field?_toJson (fields : List (String × Value)) (name : String)
    : (object fields).toJson.field? name = (fields.reverse.lookup name).map toJson := by
  have hget := get?_fieldsToJson .empty fields name
  rw [show (SortedTable.empty : SortedTable Json).get? name = none from rfl, Option.or_none] at hget
  rw [toJson]
  exact hget

theorem mem_updateField {f : Value → Value} {key : String} (h : key ∈ (updateField name f fields).map Prod.fst)
    : key = name ∨ key ∈ fields.map Prod.fst := by
  induction fields with
  | nil => simpa [updateField] using h
  | cons field rest ih =>
    rw [updateField] at h
    split at h
    · exact .inr h
    · rw [List.map_cons, List.mem_cons] at h ⊢
      obtain h | h := h
      · exact .inr (.inl h)
      · exact (ih h).imp_right .inr

theorem nodup_updateField {f : Value → Value} (h : (fields.map Prod.fst).Nodup)
    : ((updateField name f fields).map Prod.fst).Nodup := by
  induction fields with
  | nil => simp [updateField]
  | cons field rest ih =>
    rw [updateField]
    split
    · exact h
    · next hne =>
      rw [List.map_cons, List.nodup_cons] at h ⊢
      refine ⟨fun hmem => ?_, ih h.2⟩
      obtain heq | hmem := mem_updateField hmem
      · exact hne heq
      · exact h.1 hmem

end Value

theorem Dialog.Results.of_forall {α : Type} {allowed : Reply → Prop} {P : α → Prop} (h : ∀ a, P a) (d : Dialog α)
    : d.Results allowed P := by
  induction d with
  | done => exact .done (h _)
  | exhausted => exact .exhausted
  | ask request resume ih => exact .ask fun reply _ => ih reply

namespace Exec

theorem results_evalFields (bound : Nat) (parts : List (String × Expr)) (m : Machine)
    : (evalFields bound parts m).Results (fun _ => True) fun result =>
        ∀ fields, result.1 = .ok fields → fields.map Prod.fst = parts.map Prod.fst := by
  induction bound generalizing parts m with
  | zero => exact .exhausted
  | succ bound ih =>
    cases parts with
    | nil =>
      refine .done ?_
      rintro _ ⟨⟩
      rfl
    | cons part rest =>
      rw [evalFields]
      refine (Dialog.Results.of_forall (fun _ => trivial) (eval bound part.2 m)).bind ?_
      rintro ⟨e | value, m'⟩ -
      · exact .done (by rintro _ ⟨⟩)
      refine (ih rest m').bind ?_
      rintro ⟨e | fields, m''⟩ hfields
      · exact .done (by rintro _ ⟨⟩)
      · refine .done ?_
        rintro _ ⟨⟩
        exact congrArg (part.1 :: ·) (hfields fields rfl)

theorem results_eval_object (bound : Nat) (parts : List (String × Expr)) (m : Machine)
    : (eval bound (.object parts) m).Results (fun _ => True) fun result =>
        ∀ value, result.1 = .ok value
          → ∃ fields, value = .object fields ∧ fields.map Prod.fst = parts.map Prod.fst := by
  cases bound with
  | zero => exact .exhausted
  | succ bound =>
    rw [eval]
    unfold descend
    split
    · exact .done (by rintro _ ⟨⟩)
    · refine ((results_evalFields bound parts _).bind ?_).bind fun _ hresult => .done hresult
      rintro ⟨e | fields, m'⟩ hfields
      · exact .done (by rintro _ ⟨⟩)
      · refine .done ?_
        rintro _ ⟨⟩
        exact ⟨fields, rfl, hfields fields rfl⟩

end Exec

/-- An object as programs make it if their literals repeat no name: a literal, or what an assignment to
an element makes of another one. -/
inductive Value.IsRecord : Value → Prop where
  | literal {bound : Nat} {parts : List (String × Expr)} {m m' : Machine} {host : Host} {value : Value}
    (hdistinct : (parts.map Prod.fst).Nodup)
    (h : ((Exec.eval bound (.object parts) m).play host).result = some (.ok value, m')) : IsRecord value
  | assign {holder index value : Value} {name : String} {f : Value → Value} (hholder : IsRecord holder)
    (h : holder.updateElement index name f = .ok value) : IsRecord value

theorem Value.IsRecord.exists_fields (h : IsRecord value)
    : ∃ fields, value = object fields ∧ (fields.map Prod.fst).Nodup := by
  induction h with
  | literal hdistinct h =>
    obtain ⟨fields, rfl, hfields⟩ := (Exec.results_eval_object _ _ _).of_play _ h _ rfl
    exact ⟨fields, rfl, hfields ▸ hdistinct⟩
  | assign _ h ih =>
    obtain ⟨fields, rfl, hfields⟩ := ih
    cases h
    exact ⟨_, rfl, nodup_updateField hfields⟩

/-- A field is the same under its name, at its name as a position, and in what the host sees. -/
theorem Value.IsRecord.views_agree (h : IsRecord value) (name : String)
    : ∃ field, value.readProperty name = .ok field ∧ value.readElement (str name) = .ok field
        ∧ (value.toJson.field? name).getD .null = field.toJson := by
  obtain ⟨fields, rfl, hfields⟩ := h.exists_fields
  refine ⟨(fields.lookup name).getD undefined, rfl, rfl, ?_⟩
  rw [field?_toJson, ← Table.lookup_eq_of_perm hfields (List.reverse_perm fields).symm]
  cases fields.lookup name with
  | none => rfl
  | some => rfl

theorem Value.IsRecord.views_agree_single
    : ∃ field, (object [("a", bool true), ("b", null)]).readProperty "a" = .ok field
        ∧ (object [("a", bool true), ("b", null)]).readElement (str "a") = .ok field
        ∧ ((object [("a", bool true), ("b", null)]).toJson.field? "a").getD .null = field.toJson := by
  have hliteral : ((Exec.eval 3 (.object [("a", .bool true)]) (.start none 64)).play ⟨[], none⟩).result
      = some (.ok (object [("a", bool true)]), .start none 64) := rfl
  have hassign : (object [("a", bool true)]).updateElement (str "b") "o" (fun _ => null)
      = .ok (object [("a", bool true), ("b", null)]) := rfl
  exact views_agree (.assign (.literal (by decide) hliteral) hassign) "a"

theorem Value.field_repeated
    : (∃ m, ((Exec.eval 4 (.object [("a", .bool true), ("a", .bool false)]) (.start none 64)).play ⟨[], none⟩).result
          = some (.ok (object [("a", bool true), ("a", bool false)]), m))
        ∧ (object [("a", bool true), ("a", bool false)]).readProperty "a" = .ok (bool true)
        ∧ (object [("a", bool true), ("a", bool false)]).toJson.field? "a" = some (.bool false) :=
  ⟨⟨_, rfl⟩, rfl, rfl⟩

end Script

end NodeScript
