import NodeScript.Proofs.Tables
import NodeScript.Script.Machine

/-!
Nested scopes as one store: how declarations and assignments change what names stand for, and which
names each scope has.
-/

namespace NodeScript.Script

open List

variable {env env' : Env} {name : String} {value : Value}

namespace Scope

variable {scope scope' : Scope}

theorem declare_eq_ok (h : scope.declare name value = .ok scope')
    : name ∉ scope.keys ∧ scope' = scope.insert name value := by
  unfold declare at h
  split at h
  · cases h
  · next hname =>
    cases h
    exact ⟨by simpa [Table.contains_eq] using hname, rfl⟩

theorem declare_eq_error {e : RuntimeError} (h : scope.declare name value = .error e)
    : e = .redeclared name ∧ name ∈ scope.keys := by
  unfold declare at h
  split at h
  · next hname =>
    cases h
    exact ⟨rfl, by simpa [Table.contains_eq] using hname⟩
  · cases h

end Scope

namespace Env

theorem get?_eq (env : Env) (n : String)
    : env.get? n = (env.locals.findSome? (Table.get? · n)).or (env.globals.get? n) := rfl

theorem findSome?_updateLocals (scopes : List Scope) (name : String) (value : Value) (n : String)
    : (updateLocals name value scopes).findSome? (Table.get? · n) =
      if n = name then (scopes.findSome? (Table.get? · n)).map fun _ => value
      else scopes.findSome? (Table.get? · n) := by
  induction scopes with
  | nil => simp [updateLocals]
  | cons scope scopes ih =>
    rw [updateLocals, Table.contains]
    by_cases hname : n = name
    · subst hname
      cases hscope : scope.get? n with
      | some old => simp [Table.get?_insert, hscope]
      | none => simp [hscope, ih]
    · cases hscope : scope.get? name with
      | some old => simp [findSome?_cons, Table.get?_insert, hname]
      | none => simp [findSome?_cons, ih, hname]

theorem get?_assign (env : Env) (name : String) (value : Value) (n : String)
    : (env.assign name value).get? n = if n = name then some value else env.get? n := by
  unfold assign Table.contains
  rw [← isSome_findSome?]
  cases hlocal : env.locals.findSome? (Table.get? · name) with
  | some old =>
    rw [Option.isSome_some, if_pos rfl, get?_eq, findSome?_updateLocals, get?_eq]
    by_cases hn : n = name
    · simp [hn, hlocal]
    · simp [hn]
  | none =>
    rw [Option.isSome_none, if_neg Bool.false_ne_true, get?_eq, Table.get?_insert, get?_eq]
    by_cases hn : n = name
    · simp [hn, hlocal]
    · simp [hn]

theorem declare_eq_ok (h : env.declare name value = .ok env')
    : env.locals = [] ∧ name ∉ env.globals.keys ∧ env' = { env with globals := env.globals.insert name value }
      ∨ ∃ scope rest, env.locals = scope :: rest ∧ name ∉ scope.keys
        ∧ env' = { env with locals := scope.insert name value :: rest } := by
  unfold declare at h
  split at h
  · next hlocals =>
    cases hglobals : env.globals.declare name value with
    | error e =>
      rw [hglobals] at h
      cases h
    | ok globals =>
      rw [hglobals] at h
      cases h
      obtain ⟨hname, rfl⟩ := Scope.declare_eq_ok hglobals
      exact .inl ⟨hlocals, hname, rfl⟩
  · next scope rest hlocals =>
    cases hscope : scope.declare name value with
    | error e =>
      rw [hscope] at h
      cases h
    | ok scope' =>
      rw [hscope] at h
      cases h
      obtain ⟨hname, rfl⟩ := Scope.declare_eq_ok hscope
      exact .inr ⟨scope, rest, hlocals, hname, rfl⟩

theorem get?_declare (h : env.declare name value = .ok env') (n : String)
    : env'.get? n = if n = name then some value else env.get? n := by
  obtain ⟨hlocals, -, rfl⟩ | ⟨scope, rest, hlocals, -, rfl⟩ := declare_eq_ok h
  · rw [get?_eq, get?_eq, hlocals, Table.get?_insert]
    simp
  · rw [get?_eq, get?_eq, hlocals, findSome?_cons, findSome?_cons, Table.get?_insert]
    by_cases hn : n = name
    · rw [if_pos hn, if_pos hn]
      rfl
    · rw [if_neg hn, if_neg hn]

theorem exists_declare (h : env.get? name = none) (value : Value) : ∃ env', env.declare name value = .ok env' := by
  rw [get?_eq, Option.or_eq_none_iff] at h
  unfold declare Scope.declare Table.contains
  split
  · rw [h.2]
    exact ⟨_, rfl⟩
  · next scope rest hlocals =>
    rw [hlocals, findSome?_eq_none_iff] at h
    rw [h.1 scope mem_cons_self]
    exact ⟨_, rfl⟩

def shape (env : Env) : List String × List (List String) :=
  (env.globals.keys, env.locals.map Table.keys)

theorem isSome_get?_eq (env : Env) (n : String)
    : (env.get? n).isSome = (env.shape.2.any (·.contains n) || env.shape.1.contains n) := by
  have hlocals : (env.locals.findSome? (Table.get? · n)).isSome
      = (env.locals.map Table.keys).any (·.contains n) := by
    rw [isSome_findSome?, any_map]
    congr 1
    funext scope
    exact scope.contains_eq n
  rw [get?_eq, Option.isSome_or, hlocals]
  exact congrArg _ (env.globals.contains_eq n)

theorem shape_updateLocals (scopes : List Scope) (name : String) (value : Value)
    : (updateLocals name value scopes).map Table.keys = scopes.map Table.keys := by
  induction scopes with
  | nil => rfl
  | cons scope scopes ih =>
    rw [updateLocals]
    split
    · next hname =>
      rw [Table.contains_eq, contains_iff_mem] at hname
      rw [map_cons, Table.keys_insert, if_pos hname, map_cons]
    · rw [map_cons, ih, map_cons]

theorem shape_assign (h : (env.get? name).isSome) (value : Value) : (env.assign name value).shape = env.shape := by
  rw [get?_eq, Option.isSome_or, Bool.or_eq_true, isSome_findSome?] at h
  unfold assign
  split
  · unfold shape
    rw [shape_updateLocals]
  · next hlocal =>
    have hglobal : name ∈ env.globals.keys := Table.isSome_lookup_iff.mp (h.resolve_left hlocal)
    unfold shape
    rw [Table.keys_insert, if_pos hglobal]

theorem shape_locals_assign (env : Env) (name : String) (value : Value)
    : (env.assign name value).shape.2 = env.shape.2 := by
  unfold assign
  split
  · exact shape_updateLocals env.locals name value
  · rfl

theorem shape_globals_assign (env : Env) (name : String) (value : Value)
    : env.shape.1 <+: (env.assign name value).shape.1 := by
  unfold assign
  split
  · exact prefix_rfl
  · exact env.globals.keys_prefix_insert name value

theorem mem_shape_assign {n : String} (h : n ∈ (env.assign name value).shape.1) : n ∈ env.shape.1 ∨ n = name := by
  unfold assign at h
  split at h
  · exact .inl h
  · unfold shape at h
    rw [Table.keys_insert] at h
    split at h
    · exact .inl h
    · exact (mem_append.mp h).imp_right mem_singleton.mp

theorem shape_declare (h : env.declare name value = .ok env')
    : env'.locals.length = env.locals.length ∧ env.shape.1 <+: env'.shape.1 ∧ env'.shape.2.tail = env.shape.2.tail := by
  obtain ⟨-, -, rfl⟩ | ⟨scope, rest, hlocals, -, rfl⟩ := declare_eq_ok h
  · exact ⟨rfl, env.globals.keys_prefix_insert name value, rfl⟩
  · unfold shape
    rw [hlocals]
    exact ⟨rfl, prefix_rfl, rfl⟩

theorem pop_of_shape (h : env'.shape = env.push.shape)
    : env'.pop.shape = env.shape ∧ ∀ n, env'.pop.get? n = env'.get? n := by
  obtain ⟨globals, locals⟩ := env'
  simp only [shape, push, map_cons, Prod.mk.injEq] at h
  obtain ⟨hglobals, hlocals⟩ := h
  cases locals with
  | nil => exact nomatch hlocals
  | cons scope rest =>
    rw [map_cons, List.cons.injEq] at hlocals
    obtain ⟨hscope, hrest⟩ := hlocals
    refine ⟨Prod.ext hglobals hrest, fun n => ?_⟩
    have hnone : scope.get? n = none := by
      rw [← Option.not_isSome_iff_eq_none]
      intro hsome
      have hmem : n ∈ scope.keys := Table.isSome_lookup_iff.mp hsome
      rw [hscope] at hmem
      exact not_mem_nil hmem
    rw [get?_eq, get?_eq, findSome?_cons, hnone]
    rfl

end Env

end NodeScript.Script
