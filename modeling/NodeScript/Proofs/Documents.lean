import NodeScript.Graph.Document
import NodeScript.Proofs.Tables

/-!
Graphs that were read and are written read the same again. What a document may leave open, such as
other names of fields, their order, repeated keys or records written as arrays, is settled when it is
read; what is written settles it the same way.
-/

namespace NodeScript

open List

namespace Json

variable {α : Type} {declared : List Field} {given : List (String × Json)}

def Reloads (decode : Json → Option α) (encode : α → Json) : Prop :=
  ∀ (j : Json) (a : α), decode j = some a → decode (encode a) = some a

theorem reloads_text : Reloads text? str :=
  fun _ _ _ => rfl

theorem reloads_float : Reloads float? float :=
  fun _ _ _ => rfl

theorem mem_of_mapM_eq_some {β : Type} {f : α → Option β} {l : List α} {l' : List β} (h : l.mapM f = some l')
    {b : β} (hb : b ∈ l') : ∃ a ∈ l, f a = some b := by
  induction l generalizing l' with
  | nil =>
    obtain rfl : [] = l' := by simpa using h
    simp at hb
  | cons a l ih =>
    simp only [mapM_cons, Option.bind_eq_bind, Option.bind_eq_some_iff, Option.pure_def, Option.some.injEq] at h
    obtain ⟨b', hb', rest, hrest, rfl⟩ := h
    obtain rfl | hb := mem_cons.mp hb
    · exact ⟨a, mem_cons_self .., hb'⟩
    · obtain ⟨a', ha', hf⟩ := ih hrest hb
      exact ⟨a', mem_cons_of_mem _ ha', hf⟩

theorem mapM_map_eq_some {β : Type} {f : α → Option β} {g : β → α} {l : List β} (h : ∀ b ∈ l, f (g b) = some b)
    : (l.map g).mapM f = some l := by
  induction l with
  | nil => rfl
  | cons b l ih =>
    have hb := h b (mem_cons_self ..)
    have hl := ih fun b' hb' => h b' (mem_cons_of_mem _ hb')
    simp [hb, hl]

theorem Reloads.list {decode : Json → Option α} {encode : α → Json} (h : Reloads decode encode)
    : Reloads (list? decode) (fun l => .arr (l.map encode)) := by
  intro j l hl
  cases j with
  | arr items =>
    apply mapM_map_eq_some
    intro a ha
    obtain ⟨item, -, hitem⟩ := mem_of_mapM_eq_some hl ha
    exact h item a hitem
  | _ => simp [list?] at hl

theorem Reloads.table {decode : Json → Option α} {encode : α → Json} (h : Reloads decode encode)
    : Reloads (table? decode) (fun t => .obj (t.map encode).entries) := by
  intro j t ht
  cases j with
  | obj fields =>
    unfold table? at ht ⊢
    obtain ⟨entries, hentries, rfl⟩ := Option.map_eq_some_iff.mp ht
    have hreads : ((Table.ofList entries).map encode).entries.mapM
        (fun field => (field.1, ·) <$> decode field.2) = some (Table.ofList entries).entries := by
      apply mapM_map_eq_some
      intro entry hmem
      obtain ⟨field, -, hfield⟩ := mem_of_mapM_eq_some hentries (Table.mem_of_mem_ofList hmem)
      obtain ⟨value, hvalue, rfl⟩ := Option.map_eq_some_iff.mp hfield
      simp [h field.2 value hvalue]
    dsimp only
    rw [hreads, Option.map_eq_map, Option.map_some, Table.ofList_entries]
  | _ => simp [table?] at ht

def IsCanonical (j : Json) : Prop :=
  canonical? j = some j

theorem canonicalItems?_eq_some {items : List Json} (h : ∀ item ∈ items, item.IsCanonical)
    : canonicalItems? items = some items := by
  induction items with
  | nil => rfl
  | cons item items ih =>
    have hitem : canonical? item = some item := h item (mem_cons_self ..)
    have hitems := ih fun item' hmem => h item' (mem_cons_of_mem _ hmem)
    simp [canonicalItems?, hitem, hitems]

theorem canonicalFields?_eq_some {fields : List (String × Json)}
    (h : ∀ field ∈ fields, field.2.IsCanonical) (seen : SortedTable Json)
    : canonicalFields? seen fields = some (fields.foldl (fun t (key, value) => t.insert key value) seen) := by
  induction fields generalizing seen with
  | nil => rfl
  | cons field fields ih =>
    have hfield : canonical? field.2 = some field.2 := h field (mem_cons_self ..)
    have hfields := ih fun field' hmem => h field' (mem_cons_of_mem _ hmem)
    simp [canonicalFields?, hfield, hfields]

theorem canonicalFields?_entries {t : SortedTable Json} (h : ∀ entry ∈ t.entries, entry.2.IsCanonical)
    : canonicalFields? .empty t.entries = some t := by
  rw [canonicalFields?_eq_some h]
  exact congrArg some t.ofList_entries

mutual

theorem isCanonical_canonical? : ∀ (j : Json) {v : Json}, canonical? j = some v → v.IsCanonical
  | null, _, h | bool _, _, h | int _, _, h | float _, _, h | str _, _, h => by
    obtain rfl := Option.some.inj h
    rfl
  | unusable, _, h => by simp [canonical?] at h
  | arr items, _, h => by
    unfold canonical? at h
    obtain ⟨items', hitems, rfl⟩ := Option.map_eq_some_iff.mp h
    have hall := canonicalItems?_eq_some (isCanonical_canonicalItems? items hitems)
    simp [IsCanonical, canonical?, hall]
  | obj fields, _, h => by
    unfold canonical? at h
    obtain ⟨t, ht, rfl⟩ := Option.map_eq_some_iff.mp h
    have hall := canonicalFields?_entries (isCanonical_canonicalFields? fields ht nofun)
    simp [IsCanonical, canonical?, hall]

theorem isCanonical_canonicalItems? : ∀ (items : List Json) {items' : List Json},
        canonicalItems? items = some items' → ∀ item ∈ items', item.IsCanonical
  | [], _, h => by
    obtain rfl := Option.some.inj h
    nofun
  | item :: rest, _, h => by
    simp only [canonicalItems?, Option.bind_eq_bind, Option.bind_eq_some_iff, Option.pure_def, Option.some.injEq] at h
    obtain ⟨item', hitem, rest', hrest, rfl⟩ := h
    rw [forall_mem_cons]
    exact ⟨isCanonical_canonical? item hitem, isCanonical_canonicalItems? rest hrest⟩

theorem isCanonical_canonicalFields? : ∀ (fields : List (String × Json)) {seen t : SortedTable Json},
        canonicalFields? seen fields = some t → (∀ entry ∈ seen.entries, entry.2.IsCanonical) →
        ∀ entry ∈ t.entries, entry.2.IsCanonical
  | [], _, _, h, hseen => by
    obtain rfl := Option.some.inj h
    exact hseen
  | (key, value) :: rest, _, _, h, hseen => by
    simp only [canonicalFields?, Option.bind_eq_bind, Option.bind_eq_some_iff] at h
    obtain ⟨value', hvalue, hrest⟩ := h
    apply isCanonical_canonicalFields? rest hrest
    intro entry hmem
    obtain rfl | hmem := SortedTable.eq_or_mem_of_mem_insertEntry hmem
    · exact isCanonical_canonical? value hvalue
    · exact hseen entry hmem

end

theorem mem_of_canonicalFields? {fields : List (String × Json)} {seen t : SortedTable Json}
    (h : canonicalFields? seen fields = some t) {entry : String × Json} (hmem : entry ∈ t.entries)
    : entry ∈ seen.entries ∨ entry.1 ∈ fields.map Prod.fst := by
  induction fields generalizing seen with
  | nil =>
    obtain rfl := Option.some.inj h
    exact .inl hmem
  | cons field rest ih =>
    obtain ⟨value, -, hrest⟩ := Option.bind_eq_some_iff.mp h
    obtain hseen | hrest := ih hrest
    · obtain rfl | hseen := SortedTable.eq_or_mem_of_mem_insertEntry hseen
      · exact .inr (mem_cons_self ..)
      · exact .inl hseen
    · exact .inr (mem_cons_of_mem _ hrest)

def Distinct (declared : List Field) : Prop :=
  (declared.map Field.name).Nodup ∧ ∀ name ∈ declared.map Field.name,
        (declared.find? fun field => field.isCalled name).map Field.name = some name

instance (declared : List Field) : Decidable (Distinct declared) :=
  inferInstanceAs (Decidable (_ ∧ _))

section Objects

variable (h : Distinct declared) (hgiven : (given.map Prod.fst).Sublist (declared.map Field.name))
  {others : List (String × Json)}
  (hothers : ∀ other ∈ others, (declared.any fun field => field.isCalled other.1) = false)
include h hgiven

include hothers in
theorem record?_obj_append : record? declared (.obj (given ++ others)) = some given := by
  have hfilter : (given ++ others).filterMap (fun (key, value) =>
      (declared.find? fun field => field.isCalled key).map fun field => (field.name, value)) = given := by
    have hnone : others.filterMap (fun (key, value) =>
        (declared.find? fun field => field.isCalled key).map fun field => (field.name, value)) = [] := by
      rw [filterMap_eq_nil_iff]
      intro other hmem
      simpa using hothers other hmem
    have hself : given.filterMap (fun (key, value) =>
        (declared.find? fun field => field.isCalled key).map fun field => (field.name, value))
          = given.filterMap some := by
      apply filterMap_congr
      intro pair hmem
      have hname := h.2 pair.1 (hgiven.subset (mem_map_of_mem hmem))
      obtain ⟨field, hfield, hname⟩ := Option.map_eq_some_iff.mp hname
      simp [hfield, hname]
    rw [filterMap_append, hnone, hself, filterMap_some, append_nil]
  unfold record?
  dsimp only
  rw [hfilter, if_pos (hgiven.nodup h.1)]

theorem record?_obj : record? declared (.obj given) = some given := by
  have hall : ∀ other ∈ ([] : List (String × Json)), (declared.any fun field => field.isCalled other.1) = false := nofun
  have := record?_obj_append h hgiven hall
  rwa [append_nil] at this

include hothers in
theorem otherFields_append : otherFields declared (given ++ others) = others := by
  have hnone : otherFields declared given = [] := by
    unfold otherFields
    rw [filter_eq_nil_iff]
    intro pair hmem
    have hname := h.2 pair.1 (hgiven.subset (mem_map_of_mem hmem))
    obtain ⟨field, hfield, -⟩ := Option.map_eq_some_iff.mp hname
    have hcalled := find?_some hfield
    have hany : (declared.any fun field => field.isCalled pair.1) = true :=
      any_eq_true.mpr ⟨field, mem_of_find?_eq_some hfield, hcalled⟩
    simp [hany]
  have hall : otherFields declared others = others := by
    unfold otherFields
    rw [filter_eq_self]
    intro other hmem
    simp [hothers other hmem]
  unfold otherFields at *
  rw [filter_append, hnone, hall, nil_append]

end Objects

theorem sublist_fieldOf (name : String) (write : α → Json) (value : Option α)
    : ((fieldOf name write value).map Prod.fst).Sublist [name] := by
  cases value with
  | none => exact nil_sublist _
  | some value => exact .refl _

theorem sublist_ite (name : String) (value : Json) (cond : Bool)
    : ((if cond then [] else [(name, value)]).map Prod.fst).Sublist [name] := by
  cases cond with
  | true => exact nil_sublist _
  | false => exact .refl _

@[simp]
theorem lookup_fieldOf (name key : String) (write : α → Json) (value : Option α)
    : (fieldOf name write value).lookup key = if key = name then value.map write else none := by
  cases value with
  | none => simp [fieldOf]
  | some value => exact Table.lookup_cons key (name, write value) []

@[simp]
theorem lookup_ite (name key : String) (value : Json) (cond : Bool)
    : (if cond then [] else [(name, value)]).lookup key =
      if key = name then (if cond then none else some value) else none := by
  cases cond with
  | true => simp
  | false => exact Table.lookup_cons key (name, value) []

namespace Reloads

-- Each field is read before the `rest` of the record.
variable {decode : Json → Option α} {encode : α → Json} (hreloads : Reloads decode encode) {record again : Record}
  {name : String} {β : Type} {b : β}

include hreloads

theorem required {value : α} {rest : α → Option β} (h : record.required? name decode = some value)
    (hagain : again.lookup name = some (encode value)) (hrest : rest value = some b)
    : again.required? name decode >>= rest = some b := by
  obtain ⟨j, -, hj⟩ := Option.bind_eq_some_iff.mp h
  refine Option.bind_eq_some_iff.mpr ⟨value, ?_, hrest⟩
  rw [Record.required?, hagain]
  exact hreloads _ _ hj

theorem optional (hnull : ∀ a, encode a ≠ null) {value : Option α} {rest : Option α → Option β}
    (h : record.optional? name none (option? decode) = some value) (hagain : again.lookup name = value.map encode)
    (hrest : rest value = some b) : again.optional? name none (option? decode) >>= rest = some b := by
  refine Option.bind_eq_some_iff.mpr ⟨value, ?_, hrest⟩
  unfold Record.optional? at h ⊢
  rw [hagain]
  cases value with
  | none => rfl
  | some a =>
    obtain ⟨j, hj⟩ : ∃ j, decode j = some a := by
      split at h
      · next j _ =>
        unfold option? at h
        split at h
        · simp at h
        · exact ⟨j, by simpa using h⟩
      · simp at h
    simp only [Option.map_some]
    unfold option?
    split
    · next heq => exact absurd heq (hnull a)
    · simp [hreloads j a hj]

omit hreloads in
theorem eq_or_of_optional? {value missing : α} (h : record.optional? name missing decode = some value)
    : value = missing ∨ ∃ j, decode j = some value := by
  unfold Record.optional? at h
  split at h
  · next j _ => exact .inr ⟨j, h⟩
  · exact .inl (Option.some.inj h).symm

theorem defaulted {value missing : α} {rest : α → Option β} (h : record.optional? name missing decode = some value)
    (hmissing : decode (encode missing) = some missing) (hagain : again.lookup name = some (encode value))
    (hrest : rest value = some b) : again.optional? name missing decode >>= rest = some b := by
  refine Option.bind_eq_some_iff.mpr ⟨value, ?_, hrest⟩
  rw [Record.optional?, hagain]
  obtain rfl | ⟨j, hj⟩ := eq_or_of_optional? h
  · exact hmissing
  · exact hreloads _ _ hj

theorem defaulted_table {t : Table α} {rest : Table α → Option β}
    (h : record.optional? name {} (table? decode) = some t)
    (hagain : again.lookup name = if t.isEmpty then none else some (.obj (t.map encode).entries))
    (hrest : rest t = some b) : again.optional? name {} (table? decode) >>= rest = some b := by
  refine Option.bind_eq_some_iff.mpr ⟨t, ?_, hrest⟩
  obtain rfl | ⟨j, hj⟩ := eq_or_of_optional? h
  · rw [Record.optional?, hagain]
    rfl
  · rw [Record.optional?, hagain]
    split
    · next hsome =>
      split at hsome
      · simp at hsome
      · obtain rfl := Option.some.inj hsome
        exact hreloads.table _ _ hj
    · next hnone =>
      split at hnone
      · next hempty =>
        obtain ⟨entries⟩ := t
        obtain rfl := isEmpty_iff.mp hempty
        rfl
      · simp at hnone

end Reloads

end Json

open Json

theorem reloads_dataType : Reloads DataType.ofJson? DataType.toJson := by
  intro j dataType h
  cases dataType <;> rfl

theorem reloads_edgeKind : Reloads EdgeKind.ofJson? fun kind => .str kind.name := by
  intro j kind h
  cases kind <;> rfl

theorem reloads_position : Reloads Position.ofJson? Position.toJson := by
  intro j position h
  simp only [Position.ofJson?, Option.bind_eq_bind, Option.bind_eq_some_iff, Option.pure_def, Option.some.injEq] at h
  obtain ⟨record, -, x, hx, y, hy, rfl⟩ := h
  have hrecord : (Position.toJson ⟨x, y⟩).record? Position.fields = some [("x", .float x), ("y", .float y)] :=
    record?_obj (by decide) (.refl _)
  unfold Position.ofJson?
  refine Option.bind_eq_some_iff.mpr ⟨_, hrecord, ?_⟩
  refine reloads_float.required hx rfl ?_
  refine reloads_float.required hy rfl ?_
  rfl

theorem reloads_edge : Reloads Edge.ofJson? Edge.toJson := by
  intro j edge h
  simp only [Edge.ofJson?, Option.bind_eq_bind, Option.bind_eq_some_iff, Option.pure_def, Option.some.injEq] at h
  obtain ⟨record, -, id, hid, source, hsource, sourceSocket, hsourceSocket, target, htarget,
    targetSocket, htargetSocket, kind, hkind, dataType, hdataType, rfl⟩ := h
  have hdistinct : Distinct Edge.fields := by decide
  have hkeys := (List.Sublist.refl ["id", "source", "sourceSocket", "target", "targetSocket",
    "kind"]).append (sublist_fieldOf "dataType" DataType.toJson dataType)
  refine Option.bind_eq_some_iff.mpr ⟨_, record?_obj hdistinct hkeys, ?_⟩
  refine reloads_text.required hid rfl ?_
  refine reloads_text.required hsource rfl ?_
  refine reloads_text.required hsourceSocket rfl ?_
  refine reloads_text.required htarget rfl ?_
  refine reloads_text.required htargetSocket rfl ?_
  refine reloads_edgeKind.required hkind rfl ?_
  refine reloads_dataType.optional nofun hdataType (by simp [Table.lookup_cons]) ?_
  rfl

theorem reloads_port : Reloads Port.ofJson? Port.toJson := by
  intro j port h
  simp only [Port.ofJson?, Option.bind_eq_bind, Option.bind_eq_some_iff, Option.pure_def, Option.some.injEq] at h
  obtain ⟨record, -, id, hid, name, hname, dataType, hdataType, rfl⟩ := h
  have hrecord : (Port.toJson ⟨id, name, dataType⟩).record? Port.fields
      = some [("id", .str id), ("name", .str name), ("dataType", dataType.toJson)] :=
    record?_obj (by decide) (.refl _)
  unfold Port.ofJson?
  refine Option.bind_eq_some_iff.mpr ⟨_, hrecord, ?_⟩
  refine reloads_text.required hid rfl ?_
  refine reloads_text.required hname rfl ?_
  refine reloads_dataType.defaulted hdataType rfl rfl ?_
  rfl

theorem reloads_nodeData : Reloads NodeData.ofJson? NodeData.toJson := by
  intro j data h
  cases j with
  | obj fields =>
    simp only [NodeData.ofJson?, Option.bind_eq_bind, Option.bind_eq_some_iff, Option.pure_def, Option.some.injEq] at h
    obtain ⟨record, -, variableName, hvariable, prompt, hprompt, inlineValues, hinline, functionId,
      hfunction, extra, hextra, rfl⟩ := h
    have hdistinct : Distinct NodeData.fields := by decide
    have hkeys := (((sublist_fieldOf "variable" Json.str variableName).append
      (sublist_fieldOf "prompt" Json.str prompt)).append
      (sublist_ite "inlineValues" (.obj (inlineValues.map Json.str).entries)
        inlineValues.isEmpty)).append (sublist_fieldOf "functionId" Json.str functionId)
    simp only [← map_append] at hkeys
    have hothers : ∀ other ∈ extra.entries, (NodeData.fields.any fun field => field.isCalled other.1) = false := by
      intro other hmem
      obtain hempty | hfield := mem_of_canonicalFields? hextra hmem
      · exact absurd hempty not_mem_nil
      · obtain ⟨field, hfield, hname⟩ := mem_map.mp hfield
        simpa [hname] using (mem_filter.mp hfield).2
    have hrest := canonicalFields?_entries (isCanonical_canonicalFields? _ hextra nofun)
    refine Option.bind_eq_some_iff.mpr ⟨_, record?_obj_append hdistinct hkeys hothers, ?_⟩
    refine reloads_text.optional nofun hvariable (by simp [lookup_append]) ?_
    refine reloads_text.optional nofun hprompt (by simp [lookup_append]) ?_
    refine reloads_text.defaulted_table hinline (by simp [lookup_append]) ?_
    refine reloads_text.optional nofun hfunction (by simp [lookup_append]) ?_
    rw [otherFields_append hdistinct hkeys hothers]
    exact Option.bind_eq_some_iff.mpr ⟨extra, hrest, rfl⟩
  | _ => simp [NodeData.ofJson?] at h

theorem NodeKind.eq_of_ofTag_eq_unknown {text tag : String} (h : ofTag text = unknown tag) : text = tag := by
  unfold ofTag at h
  split at h <;> simp_all

theorem NodeKind.ofTag_tag_ofTag (text : String) : ofTag (ofTag text).tag = ofTag text := by
  cases h : ofTag text with
  | unknown tag =>
    obtain rfl := eq_of_ofTag_eq_unknown h
    exact h
  | _ => rfl

theorem reloads_node : Reloads Node.ofJson? Node.toJson := by
  intro j node h
  simp only [Node.ofJson?, Option.bind_eq_bind, Option.bind_eq_some_iff, Option.pure_def, Option.some.injEq] at h
  obtain ⟨record, -, id, hid, tag, htag, position, hposition, data, hdata, rfl⟩ := h
  have hdistinct : Distinct Node.fields := by decide
  have hkeys := ((List.Sublist.refl ["id", "kind"]).append
    (sublist_fieldOf "position" Position.toJson position)).append (.refl ["data"])
  have hnull : ∀ position : Position, position.toJson ≠ .null := nofun
  refine Option.bind_eq_some_iff.mpr ⟨_, record?_obj hdistinct (by rw [map_append, map_append]; exact hkeys), ?_⟩
  refine reloads_text.required hid rfl ?_
  refine Option.bind_eq_some_iff.mpr ⟨(NodeKind.ofTag tag).tag, rfl, ?_⟩
  refine reloads_position.optional hnull hposition (by simp [Table.lookup_cons, lookup_append]) ?_
  refine reloads_nodeData.defaulted hdata rfl (by simp [Table.lookup_cons, lookup_append]) ?_
  rw [NodeKind.ofTag_tag_ofTag]
  rfl

theorem reloads_functionDef : Reloads FunctionDef.ofJson? FunctionDef.toJson := by
  intro j function h
  simp only [FunctionDef.ofJson?, Option.bind_eq_bind, Option.bind_eq_some_iff, Option.pure_def, Option.some.injEq] at h
  obtain ⟨record, -, id, hid, name, hname, color, hcolor, params, hparams, returns, hreturns,
    nodes, hnodes, edges, hedges, rfl⟩ := h
  have hdistinct : Distinct FunctionDef.fields := by decide
  have hkeys := ((List.Sublist.refl ["id", "name"]).append
    (sublist_fieldOf "color" Json.str color)).append (.refl ["params", "returns", "nodes", "edges"])
  refine Option.bind_eq_some_iff.mpr ⟨_, record?_obj hdistinct (by rw [map_append, map_append]; exact hkeys), ?_⟩
  refine reloads_text.required hid rfl ?_
  refine reloads_text.required hname rfl ?_
  refine reloads_text.optional nofun hcolor (by simp [Table.lookup_cons, lookup_append]) ?_
  refine reloads_port.list.defaulted hparams rfl (by simp [Table.lookup_cons, lookup_append]) ?_
  refine reloads_port.list.defaulted hreturns rfl (by simp [Table.lookup_cons, lookup_append]) ?_
  refine reloads_node.list.defaulted hnodes rfl (by simp [Table.lookup_cons, lookup_append]) ?_
  refine reloads_edge.list.defaulted hedges rfl (by simp [Table.lookup_cons, lookup_append]) ?_
  rfl

theorem reloads_graph : Reloads Graph.ofJson? Graph.toJson := by
  intro j graph h
  simp only [Graph.ofJson?, Option.bind_eq_bind, Option.bind_eq_some_iff, Option.pure_def, Option.some.injEq] at h
  obtain ⟨record, -, nodes, hnodes, edges, hedges, functions, hfunctions, rfl⟩ := h
  have hdistinct : Distinct Graph.fields := by decide
  have hkeys := (List.Sublist.refl ["nodes", "edges"]).append
    (sublist_ite "functions" (.obj (functions.map FunctionDef.toJson).entries) functions.isEmpty)
  refine Option.bind_eq_some_iff.mpr ⟨_, record?_obj hdistinct hkeys, ?_⟩
  refine reloads_node.list.defaulted hnodes rfl rfl ?_
  refine reloads_edge.list.defaulted hedges rfl rfl ?_
  refine reloads_functionDef.defaulted_table hfunctions (by simp [Table.lookup_cons]) ?_
  rfl

/-- Reading what a graph that was read is written as gives the graph again, as far as JSON values do:
the hypothesis asks only that the text of the graph is read as the value that was printed. -/
theorem Graph.read?_write {source : String} {graph : Graph} (h : Graph.read? source = some graph)
    (hprinted : Json.read? (graph.toJson.pretty 0) = some graph.toJson)
    : Graph.read? graph.write = some graph := by
  obtain ⟨j, -, hj⟩ := Option.bind_eq_some_iff.mp h
  rw [Graph.read?, Graph.write, hprinted]
  exact reloads_graph j graph hj

def roughDocument : String :=
  "[[[\"n\",\"arrayGet\",null,\x7b\"b\":0,\"a\":\x7b\"d\":1,\"d\":2\x7d,\"b\":null\x7d]]]"

def tidyGraph : Graph where
  nodes := [⟨"n", .arrayGet, none, { extra := .ofAscending [("a", .obj [("d", .int 2)]), ("b", .null)] (by decide) }⟩]

theorem Json.read?_of_scanValue? {source : String} {value : Json}
    (h : Json.scanValue? (2 * source.toList.length + 1) 0 source.toList = some (value, [])) : Json.read? source = some value := by
  rw [Json.read?, h]
  rfl

set_option maxRecDepth 4000 in
theorem Graph.read?_write_tidyGraph : Graph.read? roughDocument = some tidyGraph
        ∧ Json.read? (tidyGraph.toJson.pretty 0) = some tidyGraph.toJson
        ∧ Graph.read? tidyGraph.write = some tidyGraph := by
  have hvalue : Json.read? roughDocument = some (.arr [.arr [.arr [.str "n", .str "arrayGet", .null,
      .obj [("b", .int 0), ("a", .obj [("d", .int 1), ("d", .int 2)]), ("b", .null)]]]]) := by
    -- A literal unfolds to its characters, and the scanner computes with these.
    change Json.read? (.ofList _) = _
    refine Json.read?_of_scanValue? ?_
    rw [String.toList_ofList]
    rfl
  have hread : Graph.read? roughDocument = some tidyGraph := by
    rw [Graph.read?, hvalue]
    rfl
  have htree : tidyGraph.toJson = .obj [("nodes", .arr [.obj [("id", .str "n"), ("kind", .str "array-get"),
      ("data", .obj [("a", .obj [("d", .int 2)]), ("b", .null)])]]), ("edges", .arr [])] := rfl
  have htwo : Int.repr 2 = "2" := rfl
  have hprinted : Json.read? (tidyGraph.toJson.pretty 0) = some tidyGraph.toJson := by
    -- What is left after `simp` scans the printed text, one character after the other.
    refine Json.read?_of_scanValue? ?_
    simp [htwo, htree, Json.pretty, Json.prettyItems, Json.prettyFields, Json.writeLeaf, Json.quote,
      Json.escape, Json.newline, String.pushn, Nat.repeat]
    rfl
  exact ⟨hread, hprinted, Graph.read?_write hread hprinted⟩

end NodeScript
