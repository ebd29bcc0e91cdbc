import NodeScript.Proofs.Locality
import NodeScript.Proofs.Temporaries

/-!
Which names the statements of a routine declare. Each is declared by one line, none is a parameter, and what is
assigned before it is declared has another name.
-/

namespace NodeScript.Compile

open List Build

def Line.assigns : Line → List String
  | assign false name _ | ask false name _ => [name]
  | _ => []

mutual

def Item.lets : Item → List String
  | .line line => line.declares
  | .ifElse _ thenItems elseItems => letsOf thenItems ++ letsOf elseItems
  | .whileLoop _ body => letsOf body
  | .forLoop _ _ _ _ body => letsOf body

def letsOf : List Item → List String
  | [] => []
  | item :: rest => item.lets ++ letsOf rest

end

def declaresOf (items : List Item) : List String :=
  items.flatMap Item.declares

mutual

def Item.spills (scope : List String) : Item → List String
  | .line line => line.assigns.filter fun name => !scope.contains name
  | .ifElse _ thenItems elseItems => spillsOf scope thenItems ++ spillsOf scope elseItems
  | .whileLoop _ body => spillsOf scope body
  | .forLoop name _ _ _ body => spillsOf (name :: scope) body

def spillsOf (scope : List String) : List Item → List String
  | [] => []
  | item :: rest => item.spills scope ++ spillsOf (item.declares ++ scope) rest

end

@[simp]
theorem letsOf_append (items items' : List Item) : letsOf (items ++ items') = letsOf items ++ letsOf items' := by
  induction items with
  | nil => rfl
  | cons item items ih => rw [cons_append, letsOf, ih, letsOf, append_assoc]

theorem Item.declares_sublist_lets (item : Item) : item.declares.Sublist item.lets := by
  cases item with
  | line line => exact List.Sublist.refl _
  | _ => exact nil_sublist _

theorem declaresOf_sublist_letsOf (items : List Item) : (declaresOf items).Sublist (letsOf items) := by
  induction items with
  | nil => exact List.Sublist.refl _
  | cons item items ih => exact item.declares_sublist_lets.append ih

mutual

theorem Item.not_mem_spills {name : String}
    : ∀ {item : Item} {scope : List String}, name ∈ scope → name ∉ item.spills scope
  | .line line, scope, h => by simp [Item.spills, h]
  | .ifElse _ thenItems elseItems, scope, h => by
    rw [Item.spills, mem_append, not_or]
    exact ⟨not_mem_spillsOf h, not_mem_spillsOf h⟩
  | .whileLoop _ body, scope, h => by
    rw [Item.spills]
    exact not_mem_spillsOf h
  | .forLoop _ _ _ _ body, scope, h => by
    rw [Item.spills]
    exact not_mem_spillsOf (mem_cons_of_mem _ h)

theorem not_mem_spillsOf {name : String}
    : ∀ {items : List Item} {scope : List String}, name ∈ scope → name ∉ spillsOf scope items
  | [], _, _ => not_mem_nil
  | item :: rest, scope, h => by
    rw [spillsOf, mem_append, not_or]
    exact ⟨Item.not_mem_spills h, not_mem_spillsOf (mem_append_right _ h)⟩

end

theorem mem_spillsOf_append {scope : List String} {items items' : List Item} {name : String}
    (h : name ∈ spillsOf scope (items ++ items'))
    : name ∈ spillsOf scope items ∨ ∃ scope', scope ++ declaresOf items ⊆ scope' ∧ name ∈ spillsOf scope' items' := by
  induction items generalizing scope with
  | nil => exact .inr ⟨scope, append_subset.mpr ⟨List.Subset.refl _, nil_subset _⟩, h⟩
  | cons item items ih =>
    rw [cons_append, spillsOf, mem_append] at h
    rw [spillsOf, mem_append]
    obtain h | h := h
    · exact .inl (.inl h)
    · obtain h | ⟨scope', hscope, h⟩ := ih h
      · exact .inl (.inr h)
      · refine .inr ⟨scope', ?_, h⟩
        intro other hother
        apply hscope
        simp only [declaresOf, flatMap_cons, mem_append] at hother ⊢
        tauto

variable {base : String} {line : Line}

namespace Bindings

def Uses (bindings : Bindings) (r : Routine) (name : String) : Prop :=
  name ∈ bindings.declared ∨ name ∉ r.functions.taken
      ∧ ∃ base ∈ temporaryBases, ∃ n < bindings.nextTemporary, name = base ++ "_" ++ Nat.repr n

variable {bindings bindings' : Bindings} {r : Routine} {name : String}

structure Precedes (bindings bindings' : Bindings) : Prop where
  declared : bindings.declared ⊆ bindings'.declared
  nextTemporary : bindings.nextTemporary ≤ bindings'.nextTemporary

theorem Precedes.refl (bindings : Bindings) : bindings.Precedes bindings :=
  ⟨List.Subset.refl _, Nat.le_refl _⟩

theorem Precedes.trans {bindings'' : Bindings} (h : bindings.Precedes bindings') (h' : bindings'.Precedes bindings'')
    : bindings.Precedes bindings'' :=
  ⟨List.Subset.trans h.declared h'.declared, Nat.le_trans h.nextTemporary h'.nextTemporary⟩

theorem Uses.mono (h : bindings.Uses r name) (hprecedes : bindings.Precedes bindings') : bindings'.Uses r name := by
  obtain h | ⟨hfree, base, hbase, n, hn, heq⟩ := h
  · exact .inl (hprecedes.declared h)
  · exact .inr ⟨hfree, base, hbase, n, Nat.lt_of_lt_of_le hn hprecedes.nextTemporary, heq⟩

theorem not_uses_temporary (htaken : bindings.declared ⊆ r.functions.taken) (hbase : base ∈ temporaryBases)
    : ¬ bindings.Uses r (bindings.temporary r base) := by
  rintro (hdeclared | ⟨-, base', hbase', n, hn, heq⟩)
  · exact bindings.temporary_not_mem_taken r hbase (htaken hdeclared)
  · have hnumber := numbered_inj hbase hbase' heq
    have hle := bindings.le_number r base
    omega

theorem precedes_declare (bindings : Bindings) (name : String) : bindings.Precedes (bindings.declare name) :=
  ⟨bindings.declared_subset_declare name, Nat.le_of_eq (bindings.nextTemporary_declare name).symm⟩

theorem precedes_take (bindings : Bindings) (r : Routine) (base : String) : bindings.Precedes (bindings.take r base) :=
  ⟨List.Subset.refl _, Nat.le_succ_of_le (bindings.le_number r base)⟩

theorem declared_declare_subset {names : List String} (h : bindings.declared ⊆ names) (hname : name ∈ names)
    : (bindings.declare name).declared ⊆ names := by
  unfold declare
  split
  · exact cons_subset.mpr ⟨hname, h⟩
  · exact h

theorem declared_bindResults (bindings : Bindings) (node : Node) (result : String) (sig : Signature)
    : (bindings.bindResults node result sig).declared = bindings.declared
        ∧ (bindings.bindResults node result sig).nextTemporary = bindings.nextTemporary := by
  unfold bindResults
  split
  any_goals exact ⟨rfl, rfl⟩
  · generalize sig.function.returns.zip sig.returns = fields
    apply foldlRecOn fields (motive := fun b : Bindings => b.declared = bindings.declared
      ∧ b.nextTemporary = bindings.nextTemporary)
    · exact ⟨rfl, rfl⟩
    · exact fun _ h _ _ => h

end Bindings

structure Introduces (r : Routine) (before : Bindings) (items : List Item) (after : Bindings) : Prop where
  nodup : (letsOf items).Nodup
  fresh : ∀ name ∈ letsOf items, ¬ before.Uses r name
  used : ∀ name ∈ letsOf items, after.Uses r name
  spilled : ∀ scope, ∀ name ∈ spillsOf scope items, name ∈ after.declared
  apart : ∀ scope, ∀ name ∈ declaresOf items, name ∉ spillsOf scope items
  precedes : before.Precedes after
  taken : after.declared ⊆ r.functions.taken

namespace Introduces

variable {r : Routine} {before between after : Bindings} {items items' : List Item}

theorem silent (hlets : letsOf items = []) (hspills : ∀ scope, spillsOf scope items = [])
    (htaken : before.declared ⊆ r.functions.taken) : Introduces r before items before := by
  have hdeclares : declaresOf items = [] := sublist_nil.mp (hlets ▸ declaresOf_sublist_letsOf items)
  refine ⟨?_, ?_, ?_, ?_, ?_, .refl before, htaken⟩
  · rw [hlets]
    exact nodup_nil
  · simp [hlets]
  · simp [hlets]
  · simp [hspills]
  · simp [hdeclares]

theorem append (h : Introduces r before items between) (h' : Introduces r between items' after)
    : Introduces r before (items ++ items') after where
  nodup := by
    rw [letsOf_append, nodup_append]
    refine ⟨h.nodup, h'.nodup, ?_⟩
    rintro name hname _ hname' rfl
    exact h'.fresh name hname' (h.used name hname)
  fresh name hname hused := by
    rw [letsOf_append, mem_append] at hname
    exact hname.elim (h.fresh name · hused) (h'.fresh name · (hused.mono h.precedes))
  used name hname := by
    rw [letsOf_append, mem_append] at hname
    exact hname.elim (fun hname => (h.used name hname).mono h'.precedes) (h'.used name)
  spilled scope name hname := by
    obtain hname | ⟨scope', -, hname⟩ := mem_spillsOf_append hname
    · exact h'.precedes.declared (h.spilled scope name hname)
    · exact h'.spilled scope' name hname
  apart scope name hname hspilled := by
    rw [declaresOf, flatMap_append, mem_append] at hname
    obtain hspilled | ⟨scope', hscope, hspilled⟩ := mem_spillsOf_append hspilled
    · obtain hname | hname := hname
      · exact h.apart scope name hname hspilled
      · exact h'.fresh name ((declaresOf_sublist_letsOf items').subset hname) (.inl (h.spilled scope name hspilled))
    · obtain hname | hname := hname
      · exact not_mem_spillsOf (hscope (mem_append_right _ hname)) hspilled
      · exact h'.apart scope' name hname hspilled
  precedes := h.precedes.trans h'.precedes
  taken := h'.taken

theorem block (h : Introduces r before items after) {item : Item} (hlets : item.lets = letsOf items)
    (hdeclares : item.declares = []) (hspills : ∀ scope, ∀ name ∈ item.spills scope, name ∈ after.declared)
    : Introduces r before [item] after := by
  have hlets' : letsOf [item] = letsOf items := by rw [letsOf, letsOf, append_nil, hlets]
  refine ⟨hlets' ▸ h.nodup, hlets' ▸ h.fresh, hlets' ▸ h.used, ?_, ?_, h.precedes, h.taken⟩
  · intro scope name hname
    rw [spillsOf, spillsOf, append_nil] at hname
    exact hspills scope name hname
  · simp [declaresOf, hdeclares]

theorem of_precedes (h : Introduces r between items after) (hprecedes : before.Precedes between)
    : Introduces r before items after :=
  { h with
    fresh := fun name hname hused => h.fresh name hname (hused.mono hprecedes)
    precedes := hprecedes.trans h.precedes }

end Introduces

section Emission

variable {r : Routine} {marks : Prop} {node : Node} {bindings bindings' : Bindings} {items : List Item}

theorem introduces_binding (hdeclares : line.declares = [name]) (hassigns : line.assigns = [])
    (hfresh : ¬ bindings.Uses r name) (hused : bindings'.Uses r name)
    (hprecedes : bindings.Precedes bindings') (htaken : bindings'.declared ⊆ r.functions.taken)
    : Introduces r bindings [.line line] bindings' := by
  have hlets : letsOf [.line line] = [name] := by simp [letsOf, Item.lets, hdeclares]
  have hspills : ∀ scope, spillsOf scope [.line line] = [] := by simp [spillsOf, Item.spills, hassigns]
  refine ⟨?_, ?_, ?_, ?_, ?_, hprecedes, htaken⟩
  · simp [hlets]
  · simpa [hlets]
  · simpa [hlets]
  · simp [hspills]
  · simp [hspills]

section Silent

variable (htaken : bindings.declared ⊆ r.functions.taken)
include htaken

theorem introduces_line (hdeclares : line.declares = []) (hassigns : line.assigns = [])
    : Introduces r bindings [.line line] bindings := by
  refine .silent ?_ (fun scope => ?_) htaken
  · simp [letsOf, Item.lets, hdeclares]
  · simp [spillsOf, Item.spills, hassigns]

theorem introduces_enter (node : Node) : Introduces r bindings (enter r node) bindings := by
  unfold enter
  split
  · exact introduces_line htaken rfl rfl
  · exact .silent rfl (fun _ => rfl) htaken

theorem introduces_enter_line (node : Node) (hdeclares : line.declares = []) (hassigns : line.assigns = [])
    : Introduces r bindings (enter r node ++ [.line line]) bindings :=
  (introduces_enter htaken node).append (introduces_line htaken hdeclares hassigns)

theorem introduces_notify (name : String) : Introduces r bindings (notify r name) bindings := by
  unfold notify
  split
  · exact introduces_line htaken rfl rfl
  · exact .silent rfl (fun _ => rfl) htaken

theorem introduces_variable {name : String} (hname : name ∈ r.functions.taken)
    (hfresh : bindings.isFresh name = true → line.declares = [name] ∧ line.assigns = [])
    (hold : bindings.isFresh name = false → line.declares = [] ∧ line.assigns = [name])
    : Introduces r bindings [.line line] (bindings.declare name) := by
  have hdeclared := bindings.mem_declared_declare name
  have hprecedes := bindings.precedes_declare name
  have htaken' := Bindings.declared_declare_subset htaken hname
  cases hisFresh : bindings.isFresh name with
  | true =>
    obtain ⟨hdeclares, hassigns⟩ := hfresh hisFresh
    refine introduces_binding hdeclares hassigns (fun huses => ?_) (.inl hdeclared) hprecedes htaken'
    have hbefore := huses.resolve_right fun htemporary => htemporary.1 hname
    simp [Bindings.isFresh, hbefore] at hisFresh
  | false =>
    obtain ⟨hdeclares, hassigns⟩ := hold hisFresh
    have hlets : letsOf [.line line] = [] := by simp [letsOf, Item.lets, hdeclares]
    refine ⟨?_, ?_, ?_, ?_, ?_, hprecedes, htaken'⟩
    · rw [hlets]
      exact nodup_nil
    · simp [hlets]
    · simp [hlets]
    · intro scope other hother
      simp only [spillsOf, Item.spills, hassigns, append_nil, mem_filter, mem_singleton] at hother
      rw [hother.1]
      exact hdeclared
    · simp [declaresOf, Item.declares, hdeclares]

theorem introduces_temporary (hbase : base ∈ temporaryBases)
    (hdeclares : line.declares = [bindings.temporary r base]) (hassigns : line.assigns = [])
    : Introduces r bindings [.line line] (bindings.take r base) :=
  introduces_binding hdeclares hassigns (Bindings.not_uses_temporary htaken hbase)
    (.inr ⟨bindings.temporary_not_mem_taken r hbase, base, hbase, _, Nat.lt_succ_self _, rfl⟩)
    (bindings.precedes_take r base) htaken

end Silent

theorem Introduces.congr {after : Bindings} (h : Introduces r bindings items after)
    (hdeclared : bindings'.declared = after.declared) (hnext : bindings'.nextTemporary = after.nextTemporary)
    : Introduces r bindings items bindings' := by
  have hprecedes : after.Precedes bindings' := ⟨hdeclared ▸ List.Subset.refl _, hnext.ge⟩
  exact ⟨h.nodup, h.fresh, fun name hname => (h.used name hname).mono hprecedes,
    fun scope name hname => hprecedes.declared (h.spilled scope name hname), h.apart, h.precedes.trans hprecedes,
    hdeclared ▸ h.taken⟩

theorem Passes.introduces (h : Passes r marks node bindings items bindings') (hreserves : r.Reserves)
    (hnode : node ∈ r.wiring.nodes) (htaken : bindings.declared ⊆ r.functions.taken)
    : Introduces r bindings items bindings' := by
  have hvariable : ∀ default ∈ defaultBindings, ∀ line : Line, (bindings.isFresh (variableOf node default) = true
        → line.declares = [variableOf node default] ∧ line.assigns = [])
      → (bindings.isFresh (variableOf node default) = false
        → line.declares = [] ∧ line.assigns = [variableOf node default])
      → Introduces r bindings (enter r node ++ [.line line] ++ notify r (variableOf node default))
        (bindings.declare (variableOf node default)) := by
    intro default hdefault line hfresh hold
    have hline := introduces_variable htaken (hreserves.bound node hnode default hdefault) hfresh hold
    exact ((introduces_enter htaken _).append hline).append (introduces_notify hline.taken _)
  cases h with
  | ask | set | create =>
    refine hvariable _ (by decide) _ ?_ ?_
    · intro h
      rw [h]
      exact ⟨rfl, rfl⟩
    · intro h
      rw [h]
      exact ⟨rfl, rfl⟩
  | push | store => exact (introduces_enter_line htaken node rfl rfl).append (introduces_notify htaken _)
  | print | callUnknown | callNothing => exact introduces_enter_line htaken node rfl rfl
  | pop =>
    have hpop : Introduces r bindings
        [.line (.pop (bindings.temporary r "__pop") (variableOf node "_arr"))] (bindings.take r "__pop") :=
      introduces_temporary htaken (by decide) rfl rfl
    exact (((introduces_enter htaken _).append hpop).append (introduces_notify hpop.taken _)).congr rfl rfl
  | @call sig arguments =>
    have hcall : Introduces r bindings
        [.line (.call (some (bindings.temporary r "__ret")) sig.name arguments)]
        (bindings.take r "__ret") :=
      introduces_temporary htaken (by decide) rfl rfl
    obtain ⟨hdeclared, hnext⟩ := (bindings.take r "__ret").declared_bindResults node
      (bindings.temporary r "__ret") _
    exact ((introduces_enter htaken _).append hcall).congr hdeclared hnext
  | other => exact .silent rfl (fun _ => rfl) htaken

theorem Ends.introduces (h : Ends r marks node bindings.temporaries items)
    (htaken : bindings.declared ⊆ r.functions.taken) : Introduces r bindings items bindings := by
  cases h with
  | stop => exact introduces_enter htaken _
  | breakLoop | continueLoop => exact introduces_enter_line htaken node rfl rfl
  | @returnFrom sig values =>
    match values with
    | [] | [_] | _ :: _ :: _ => exact introduces_enter_line htaken node rfl rfl
  | other => exact .silent rfl (fun _ => rfl) htaken

theorem Heads.introduces {head : List Item → Item} (h : Heads r marks node bindings head bindings')
    (hreserves : r.Reserves) (hnode : node ∈ r.wiring.nodes) (htaken : bindings.declared ⊆ r.functions.taken)
    : bindings'.declared ⊆ r.functions.taken
        ∧ ∀ after, Introduces r bindings' items after → Introduces r bindings [head items] after := by
  cases h with
  | @forLoop start limit step =>
    have htaken' := Bindings.declared_declare_subset htaken (hreserves.bound node hnode "i" (by decide))
    refine ⟨htaken', fun after hitems => ?_⟩
    have hbody := ((introduces_enter htaken' node).append (introduces_notify htaken' (variableOf node "i"))).append hitems
    have hloop : Introduces r (bindings.declare (variableOf node "i"))
        [.forLoop (variableOf node "i") start limit step
          (enter r node ++ notify r (variableOf node "i") ++ items)] after :=
      hbody.block rfl rfl fun scope => hbody.spilled (variableOf node "i" :: scope)
    exact hloop.of_precedes (bindings.precedes_declare _)
  | whileLoop =>
    refine ⟨htaken, fun after hitems => ?_⟩
    have hbody := (introduces_enter htaken node).append hitems
    exact hbody.block rfl rfl hbody.spilled

theorem Emits.introduces {tour : Tour} (h : Emits r marks tour bindings items bindings')
    (hreserves : r.Reserves) (hnodes : ∀ node ∈ tour.nodes, node ∈ r.wiring.nodes)
    (htaken : bindings.declared ⊆ r.functions.taken) : Introduces r bindings items bindings' := by
  induction h with
  | stop => exact .silent rfl (fun _ => rfl) htaken
  | cut => exact introduces_line htaken rfl rfl
  | pass h _ ih =>
    obtain ⟨hnode, hrest⟩ := forall_mem_cons.mp hnodes
    have hitems := h.introduces hreserves hnode htaken
    exact hitems.append (ih hrest hitems.taken)
  | last h => exact h.introduces htaken
  | branch _ _ _ ihTrue ihFalse =>
    obtain ⟨-, hrest⟩ := forall_mem_cons.mp hnodes
    obtain ⟨htrue, hfalse⟩ := forall_mem_append.mp hrest
    have hthen := ihTrue htrue htaken
    have helse := ihFalse hfalse hthen.taken
    refine (introduces_enter htaken _).append ((hthen.append helse).block (letsOf_append _ _).symm rfl ?_)
    intro scope name hname
    rw [Item.spills, mem_append] at hname
    exact hname.elim (fun hname => helse.precedes.declared (hthen.spilled scope name hname)) (helse.spilled scope name)
  | loop hhead _ _ ihBody ihRest =>
    obtain ⟨hnode, hrest⟩ := forall_mem_cons.mp hnodes
    obtain ⟨hbody, hrest⟩ := forall_mem_append.mp hrest
    obtain ⟨htaken', hitem⟩ := hhead.introduces hreserves hnode htaken
    have hloop := hitem _ (ihBody hbody htaken')
    exact ((introduces_enter htaken _).append hloop).append (ihRest hrest hloop.taken)

end Emission

namespace Job

variable {job : Job}

theorem introduces_compiled {outset : Outset} (h : outset ∈ job.outsets)
    : ∃ after, Introduces outset.routine outset.routine.start.bindings outset.compiled.1 after := by
  have hreserves := reserves_of_mem_outsets h
  obtain ⟨after, hemits⟩ := outset.routine.emits_compileFrom outset.entry outset.depth
  refine ⟨after, hemits.introduces hreserves (follows_of_mem_outsets h).mem_nodes ?_⟩
  cases hsig : outset.routine.signature with
  | none => simp [State.bindings, Routine.start, hsig]
  | some sig =>
    have hparams := (hreserves.signature sig hsig).params
    simpa [State.bindings, Routine.start, hsig] using hparams

theorem declares_once {outset : Outset} (h : outset ∈ job.outsets) : (letsOf outset.compiled.1).Nodup
        ∧ ∀ sig ∈ outset.routine.signature, ∀ name ∈ letsOf outset.compiled.1, name ∉ sig.params := by
  obtain ⟨after, hintroduces⟩ := introduces_compiled h
  refine ⟨hintroduces.nodup, fun sig hsig name hname hparam => ?_⟩
  refine hintroduces.fresh name hname (.inl ?_)
  rw [Option.mem_def] at hsig
  simpa [State.bindings, Routine.start, hsig] using hparam

end Job

end NodeScript.Compile
