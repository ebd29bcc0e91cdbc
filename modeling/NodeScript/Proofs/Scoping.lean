import NodeScript.Proofs.Temporaries

/-!
Where temporary names stand. A temporary name is bound by one line and stands only below it, but not
always in the block of that line: the expression of a result names what was bound last, also if that
was in another arm or in the body of a loop that has been left.
-/

namespace NodeScript.Compile

open List

variable {bindings bindings' : Bindings} {exactly : Prop} {names seen temps : List String} {node : Node}

open Build

def Line.subject : Line → List String
  | notify name | assign _ name _ | ask _ name _ | push name _ | store name _ _ | pop _ name
  | call _ name _ => [name]
  | _ => []

def Line.uses (line : Line) : List String :=
  line.codes.flatMap Code.names ++ line.subject

def Line.binds : Line → List String
  | pop temporary _ => [temporary]
  | call temporary _ _ => temporary.toList
  | _ => []

mutual

def Item.binders : Item → List String
  | .line line => line.binds
  | .ifElse _ thenItems elseItems => bindersOf thenItems ++ bindersOf elseItems
  | .whileLoop _ body => bindersOf body
  | .forLoop _ _ _ _ body => bindersOf body

def bindersOf : List Item → List String
  | [] => []
  | item :: rest => item.binders ++ bindersOf rest

end

def Known (temps seen names : List String) : Prop :=
  ∀ name ∈ names, name ∈ temps → name ∈ seen

/-- The temporary names that are seen after a statement; those of blocks inside it only if `flat`. -/
def Item.exposes (flat : Bool) : Item → List String
  | .line l => l.binds
  | item => if flat then item.binders else []

mutual

/-- Temporary names in the statement have been seen or are bound above, and unless `flat`, they are
bound in the same block or in one around it. -/
def Item.Sees (flat : Bool) (temps seen : List String) : Item → Prop
  | .line line => Known temps seen line.uses
  | .ifElse cond thenItems elseItems =>
    Known temps seen cond.names ∧ SeesAll flat temps seen thenItems
      ∧ SeesAll flat temps (seen ++ if flat then bindersOf thenItems else []) elseItems
  | .whileLoop cond body =>
    Known temps seen cond.names ∧ SeesAll flat temps seen body
  | .forLoop name start limit step body =>
    Known temps seen (name :: (start.names ++ limit.names ++ step.names)) ∧ SeesAll flat temps seen body

def SeesAll (flat : Bool) (temps seen : List String) : List Item → Prop
  | [] => True
  | item :: rest =>
    item.Sees flat temps seen ∧ SeesAll flat temps (seen ++ item.exposes flat) rest

end

instance (temps seen names : List String) : Decidable (Known temps seen names) :=
  inferInstanceAs (Decidable (∀ name ∈ names, name ∈ temps → name ∈ seen))

mutual

def Item.decideSees (flat : Bool) (temps seen : List String)
    : (item : Item) → Decidable (item.Sees flat temps seen)
  | .line line => inferInstanceAs (Decidable (Known temps seen line.uses))
  | .ifElse _ thenItems elseItems =>
    @instDecidableAnd _ _ inferInstance (@instDecidableAnd _ _
      (decideSeesAll flat temps seen thenItems) (decideSeesAll flat temps _ elseItems))
  | .whileLoop _ body | .forLoop _ _ _ _ body =>
    @instDecidableAnd _ _ inferInstance (decideSeesAll flat temps seen body)

def decideSeesAll (flat : Bool) (temps seen : List String)
    : (items : List Item) → Decidable (SeesAll flat temps seen items)
  | [] => .isTrue trivial
  | item :: rest =>
    @instDecidableAnd _ _ (item.decideSees flat temps seen)
      (decideSeesAll flat temps (seen ++ item.exposes flat) rest)

end

instance (flat : Bool) (temps seen : List String) (items : List Item) : Decidable (SeesAll flat temps seen items) :=
  decideSeesAll flat temps seen items

theorem bindersOf_append (items items' : List Item)
    : bindersOf (items ++ items') = bindersOf items ++ bindersOf items' := by
  induction items with
  | nil => rfl
  | cons item items ih => rw [cons_append, bindersOf, ih, bindersOf, append_assoc]

variable {items : List Item} {line : Line} {codes : List Code} {head : List Item → Item} {name : String}

theorem seesAll_append {flat : Bool} {items' : List Item} : SeesAll flat temps seen (items ++ items')
        ↔ SeesAll flat temps seen items
          ∧ SeesAll flat temps (seen ++ items.flatMap (Item.exposes flat)) items' := by
  induction items generalizing seen with
  | nil => simp [SeesAll]
  | cons item items ih =>
    rw [cons_append, SeesAll, ih, SeesAll, flatMap_cons, append_assoc, and_assoc]

theorem known_uses (hsubject : ∀ name ∈ line.subject, name ∉ temps)
    : Known temps seen line.uses ↔ ∀ code ∈ line.codes, Known temps seen code.names := by
  have hknown : Known temps seen line.subject :=
    fun name hname htemporary => absurd htemporary (hsubject name hname)
  unfold Line.uses Known at *
  rw [forall_mem_append, and_iff_left hknown]
  simp only [mem_flatMap]
  constructor
  · intro h code hcode name hname
    exact h name ⟨code, hcode, hname⟩
  · rintro h name ⟨code, hcode, hname⟩
    exact h code hcode name hname

section Node

variable {r : Routine} {node : Node} {flat : Bool} {temps seen : List String}

@[simp]
theorem bindersOf_enter : bindersOf (enter r node) = [] := by
  unfold enter
  split <;> rfl

@[simp]
theorem bindersOf_notify (name : String) : bindersOf (notify r name) = [] := by
  unfold notify
  split <;> rfl

@[simp]
theorem exposes_enter : (enter r node).flatMap (Item.exposes flat) = [] := by
  unfold enter
  split <;> simp [Item.exposes, Line.binds]

@[simp]
theorem exposes_notify (name : String) : (notify r name).flatMap (Item.exposes flat) = [] := by
  unfold notify
  split <;> simp [Item.exposes, Line.binds]

theorem seesAll_enter : SeesAll flat temps seen (enter r node) := by
  unfold enter
  split
  · exact ⟨nofun, trivial⟩
  · trivial

theorem seesAll_notify (hname : name ∉ temps) : SeesAll flat temps seen (notify r name) := by
  unfold notify
  split
  · refine ⟨?_, trivial⟩
    intro other hother htemporary
    rw [mem_singleton.mp hother] at htemporary
    exact absurd htemporary hname
  · trivial

theorem seesAll_enter_line : SeesAll flat temps seen (enter r node ++ [.line line]) ↔ Known temps seen line.uses := by
  rw [seesAll_append, exposes_enter, append_nil]
  simp [seesAll_enter, SeesAll, Item.Sees]

end Node

structure Shows (r : Routine) (temps : List (Endpoint × Code)) (marks : Prop) (node : Node)
    (codes : List Code) : Prop where
  read : ∀ code ∈ codes, code.names = [] ∨ ∃ socket ∈ r.statementSockets node, ∃ source,
        r.wiring.source? node.id socket = some source ∧ Unfolds r temps marks source code
  shown : ∀ socket ∈ r.statementSockets node, ∀ source, r.wiring.source? node.id socket = some source
      → ∃ code ∈ codes, Unfolds r temps marks source code

section Shows

variable {r : Routine} {temps : List (Endpoint × Code)} {marks : Prop} {node : Node}

theorem Shows.nil (h : r.statementSockets node = []) : Shows r temps marks node [] where
  read := nofun
  shown := by simp [h]

def IsSupplied (r : Routine) (temps : List (Endpoint × Code)) (marks : Prop) (node : Node)
    (socket : String) (code : Code) : Prop :=
  ∃ typed : Code, typed.names = [] ∧ Supplied r (Resolved r temps marks) node socket typed code

theorem Reading.isSupplied {socket fallback : String} {code : Code}
    (h : Reading r temps marks node socket fallback code)
    : IsSupplied r temps marks node socket code :=
  ⟨_, rfl, h⟩

theorem Shows.of_forall₂ {sockets : List String} (hsockets : r.statementSockets node = sockets)
    (h : List.Forall₂ (IsSupplied r temps marks node) sockets codes)
    : Shows r temps marks node codes := by
  refine ⟨?_, ?_⟩
  all_goals
    rw [hsockets]
    clear hsockets
  · intro code hcode
    induction h with
    | nil => exact (not_mem_nil hcode).elim
    | @cons socket code' sockets codes hvalue _ ih =>
      obtain rfl | hcode := mem_cons.mp hcode
      · obtain ⟨typed, htyped, hsupplied⟩ := hvalue
        cases hsource : r.wiring.source? node.id socket with
        | none => exact .inl (hsupplied.typed hsource ▸ htyped)
        | some source =>
          exact .inr ⟨socket, mem_cons_self .., source, hsource, (hsupplied.wired _ hsource).unfolds⟩
      · refine (ih hcode).imp_right ?_
        rintro ⟨socket', hsocket, hshown⟩
        exact ⟨socket', mem_cons_of_mem _ hsocket, hshown⟩
  · intro socket' hsocket source hsource
    induction h with
    | nil => exact (not_mem_nil hsocket).elim
    | @cons socket code sockets codes hvalue _ ih =>
      obtain rfl | hsocket := mem_cons.mp hsocket
      · obtain ⟨typed, -, hsupplied⟩ := hvalue
        exact ⟨code, mem_cons_self .., (hsupplied.wired source hsource).unfolds⟩
      · obtain ⟨code', hcode, hunfolds⟩ := ih hsocket
        exact ⟨code', mem_cons_of_mem _ hcode, hunfolds⟩

theorem Saying.shows {message : Code} (h : Saying r temps marks node message)
    (hkind : r.kindOf node = .input) : Shows r temps marks node [message] := by
  cases hsource : r.wiring.source? node.id "prompt" with
  | none =>
    refine ⟨?_, by simp [Routine.statementSockets, hkind, hsource]⟩
    rw [h.typed hsource]
    simp [Code.names]
  | some source =>
    exact .of_forall₂ (by simp [Routine.statementSockets, hkind, hsource]) (.cons ⟨_, rfl, h⟩ .nil)

theorem Readings.forall₂ {ports : List Port} (h : Readings r temps marks node ports codes)
    : List.Forall₂ (IsSupplied r temps marks node) (ports.map Port.id) codes := by
  rw [forall₂_map_left_iff]
  exact h.imp fun _ _ => Reading.isSupplied

end Shows

def SeesThrough (r : Routine) (codes : List Code) (items : List Item) : Prop :=
  ∀ (flat : Bool) (temps seen : List String), (∀ name ∈ temps, name ∉ r.functions.taken)
      → (SeesAll flat temps seen items ↔ ∀ code ∈ codes, Known temps seen code.names)

section Statements

variable {r : Routine} {marks : Prop} {node : Node}

theorem seesThrough_line (node : Node) (hsubject : ∀ name ∈ line.subject, name ∈ r.functions.taken)
    : SeesThrough r line.codes (enter r node ++ [.line line]) := by
  intro flat temps seen htemps
  rw [seesAll_enter_line]
  exact known_uses fun name hname htemporary => htemps name htemporary (hsubject name hname)

theorem seesThrough_written (hsubject : line.subject = [name]) (hname : name ∈ r.functions.taken)
    : SeesThrough r line.codes (enter r node ++ [.line line] ++ notify r name) := by
  intro flat temps seen htemps
  rw [seesAll_append, seesAll_enter_line,
    and_iff_left (seesAll_notify fun htemporary => htemps name htemporary hname)]
  refine known_uses ?_
  rw [hsubject, forall_mem_singleton]
  exact fun htemporary => htemps name htemporary hname

variable {bindings bindings' : Bindings}

theorem Passes.shows (h : Passes r marks node bindings items bindings') (hreserves : r.Reserves)
    (hnode : node ∈ r.wiring.nodes) (hshape : Shape.ofKind (r.kindOf node) = .pass)
    : ∃ codes, Shows r bindings.temporaries marks node codes ∧ SeesThrough r codes items := by
  have hvariable := hreserves.bound node hnode
  cases h with
  | ask hkind hmessage =>
    exact ⟨_, hmessage.shows hkind, seesThrough_written rfl (hvariable _ (by decide))⟩
  | print hkind hvalue =>
    exact ⟨_, .of_forall₂ (by simp [Routine.statementSockets, hkind]) (.cons hvalue.isSupplied .nil),
      seesThrough_line node (by simp [Line.subject])⟩
  | set hkind hvalue | push hkind hvalue =>
    exact ⟨_, .of_forall₂ (by simp [Routine.statementSockets, hkind]) (.cons hvalue.isSupplied .nil),
      seesThrough_written rfl (hvariable _ (by decide))⟩
  | create hkind =>
    refine ⟨_, ⟨?_, by simp [Routine.statementSockets, hkind]⟩,
      seesThrough_written rfl (hvariable _ (by decide))⟩
    simp [Line.codes, Code.names]
  | pop hkind =>
    exact ⟨_, .nil (by simp [Routine.statementSockets, hkind]), seesThrough_written rfl (hvariable _ (by decide))⟩
  | store hkind hindex hvalue =>
    exact ⟨_, .of_forall₂ (by simp [Routine.statementSockets, hkind])
      (.cons hindex.isSupplied (.cons hvalue.isSupplied .nil)),
      seesThrough_written rfl (hvariable _ (by decide))⟩
  | callUnknown hkind hfunction _ =>
    exact ⟨_, .nil (by simp [Routine.statementSockets, hkind, hfunction]), seesThrough_line node (by simp [Line.subject])⟩
  | callNothing hkind hfunction harguments _ | call hkind hfunction harguments _ =>
    have hname := (hreserves.functions _ (Signatures.mem_of_get?_eq_some hfunction)).name
    exact ⟨_, .of_forall₂ (by simp [Routine.statementSockets, hkind, hfunction]) harguments.forall₂,
      seesThrough_line node (by simpa [Line.subject] using hname)⟩
  | other hkind =>
    have hsockets : r.statementSockets node = [] := by
      unfold Routine.statementSockets
      cases hkind' : r.kindOf node <;> simp_all [passKinds, Shape.ofKind]
    exact ⟨[], .nil hsockets, fun _ _ _ _ => by simp [SeesAll]⟩

theorem Ends.shows {temps : List (Endpoint × Code)} (h : Ends r marks node temps items)
    (hreserves : r.Reserves) (hshape : Shape.ofKind (r.kindOf node) = .last)
    : ∃ codes, Shows r temps marks node codes ∧ SeesThrough r codes items := by
  cases h with
  | stop hkind => exact ⟨[], .nil (by simp [Routine.statementSockets, hkind]), fun _ _ _ _ => by simp [seesAll_enter]⟩
  | breakLoop hkind | continueLoop hkind =>
    exact ⟨_, .nil (by simp [Routine.statementSockets, hkind]), seesThrough_line node nofun⟩
  | @returnFrom sig values hkind hsig hvalues =>
    have hlength := (hreserves.signature sig hsig).returns.trans hvalues.length_eq
    have hcodes := codes_returnLine hlength
    have hsubject : ∀ name ∈ (returnLine sig values).subject, name ∈ r.functions.taken := by
      match values with
      | [] | [_] | _ :: _ :: _ => exact nofun
    have hsees := seesThrough_line node hsubject
    rw [hcodes] at hsees
    exact ⟨values, .of_forall₂ (by simp [Routine.statementSockets, hkind, hsig]) hvalues.forall₂, hsees⟩
  | other hkind hsig =>
    have hsockets : r.statementSockets node = [] := by
      unfold Routine.statementSockets
      cases hkind' : r.kindOf node <;> simp_all [Shape.ofKind]
    exact ⟨[], .nil hsockets, fun _ _ _ _ => by simp [SeesAll]⟩

theorem Heads.shows (h : Heads r marks node bindings head bindings') (hreserves : r.Reserves)
    (hnode : node ∈ r.wiring.nodes) (hshape : Shape.ofKind (r.kindOf node) = .loop)
    : ∃ codes, Shows r bindings.temporaries marks node codes ∧ ∀ (flat : Bool) (temps seen : List String),
          (∀ name ∈ temps, name ∉ r.functions.taken) → ∀ body, ((head body).Sees flat temps seen
              ↔ (∀ code ∈ codes, Known temps seen code.names) ∧ SeesAll flat temps seen body) := by
  cases h with
  | @forLoop start limit step hkind hstart hlimit hstep =>
    refine ⟨[start, limit, step], .of_forall₂ (by simp [Routine.statementSockets, hkind])
      (.cons hstart.isSupplied (.cons hlimit.isSupplied (.cons hstep.isSupplied .nil))), ?_⟩
    intro flat temps seen htemps body
    have hname : variableOf node "i" ∉ temps := fun htemporary =>
      htemps _ htemporary (hreserves.bound node hnode _ (by decide))
    have hbody : SeesAll flat temps seen (enter r node ++ notify r (variableOf node "i") ++ body)
          ↔ SeesAll flat temps seen body := by
      rw [seesAll_append, seesAll_append]
      simp [seesAll_enter, seesAll_notify hname]
    rw [Item.Sees, hbody, and_congr_left_iff]
    intro _
    simp [Known, hname, or_imp, forall_and]
  | @whileLoop cond hkind hcond =>
    have hwhile := Shape.eq_loop_of_ofKind hshape hkind
    refine ⟨[cond], .of_forall₂ (by simp [Routine.statementSockets, hwhile])
      (.cons hcond.isSupplied .nil), ?_⟩
    intro flat temps seen htemps body
    rw [Item.Sees, seesAll_append]
    simp [seesAll_enter]

theorem Passes.exposes (h : Passes r marks node bindings items bindings') (flat : Bool)
    : items.flatMap (Item.exposes flat) = bindersOf items := by
  cases h <;> simp [bindersOf_append, bindersOf, Item.exposes, Item.binders]

theorem Ends.binders {temps : List (Endpoint × Code)} (h : Ends r marks node temps items) : bindersOf items = [] := by
  cases h with
  | @returnFrom sig values =>
    match values with
    | [] | [_] | _ :: _ :: _ => simp [bindersOf_append, bindersOf, Item.binders, returnLine, Line.binds]
  | _ => simp [bindersOf_append, bindersOf, Item.binders, Line.binds]

theorem Heads.exposes (h : Heads r marks node bindings head bindings') (flat : Bool) (body : List Item)
    : (head body).exposes flat = if flat then bindersOf body else [] := by
  cases h <;> simp [Item.exposes, Item.binders, bindersOf_append]

theorem Heads.binders (h : Heads r marks node bindings head bindings') (body : List Item)
    : (head body).binders = bindersOf body := by
  cases h <;> simp [Item.binders, bindersOf_append]

end Statements

/-- A statement of a tour, with the nodes whose statements stand above it, and with those on the path
that leads to it. -/
structure Place where
  node : Node
  above : List String
  path : List String

def Tour.places (above path : List String) : Tour → List Place
  | stop | cut _ => []
  | pass node rest => ⟨node, above, path⟩ :: rest.places (above ++ [node.id]) (path ++ [node.id])
  | last node => [⟨node, above, path⟩]
  | branch node onTrue onFalse =>
    ⟨node, above, path⟩ :: (onTrue.places (above ++ [node.id]) (path ++ [node.id])
      ++ onFalse.places (above ++ [node.id] ++ onTrue.ids) (path ++ [node.id]))
  | loop node body rest =>
    ⟨node, above, path⟩ :: (body.places (above ++ [node.id]) (path ++ [node.id])
      ++ rest.places (above ++ [node.id] ++ body.ids) (path ++ [node.id]))

/-- Of the results that have been bound above, the statement reads those of the given nodes only. -/
def Place.ReadsFrom (r : Routine) (place : Place) (ids : List String) : Prop :=
  ∀ socket ∈ r.statementSockets place.node, ∀ source, r.wiring.source? place.node.id socket = some source
      → ∀ out, Relation.ReflTransGen r.IsSource out source → r.IsResult out
        → out.node ∈ place.above → out.node ∈ ids

/-- Which temporary name belongs to which node: those of all nodes above, the latest first, and those
of the nodes on a path. -/
structure Ledger (r : Routine) (above path : List String) (bindings : Bindings)
    (ledger own : List (String × String)) : Prop where
  found : ∀ out code, bindings.temporaries.lookup out = some code → r.IsResult out
      ∧ ∃ name, ledger.lookup out.node = some name ∧ code.names = [name]
  bound : ∀ out, r.IsResult out → out.node ∈ above → (bindings.temporaries.lookup out).isSome
  mem_above : ∀ entry ∈ ledger, entry.1 ∈ above
  subset : own ⊆ ledger
  mem_path : ∀ entry ∈ own, entry.1 ∈ path
  latest : ∀ id ∈ path, r.resultSockets id ≠ [] → ledger.lookup id = own.lookup id
  free : ∀ entry ∈ ledger, entry.2 ∉ r.functions.taken
  numbered : ∀ entry ∈ ledger, ∃ base ∈ temporaryBases, ∃ n < bindings.nextTemporary,
    entry.2 = base ++ "_" ++ Nat.repr n
  nodup : (ledger.map Prod.snd).Nodup

theorem isSome_lookup_of_mem {out : Endpoint} {code : Code} {entries : List (Endpoint × Code)}
    (h : (out, code) ∈ entries) : (entries.lookup out).isSome := by
  rw [Option.isSome_iff_ne_none]
  intro hnone
  simpa using lookup_eq_none_iff.mp hnone _ h

namespace Ledger

variable {r : Routine} {above path : List String} {bindings bindings' : Bindings}
  {ledger own : List (String × String)}

theorem flat (h : Ledger r above path bindings ledger own) : Ledger r above above bindings ledger ledger :=
  { h with
    subset := List.Subset.refl _
    mem_path := h.mem_above
    latest := fun _ _ _ => rfl }

theorem skip (h : Ledger r above path bindings ledger own) (hnode : r.resultSockets node.id = [])
    (htemps : bindings'.temporaries = bindings.temporaries) (hnext : bindings'.nextTemporary = bindings.nextTemporary)
    : Ledger r (above ++ [node.id]) (path ++ [node.id]) bindings' ledger own where
  found := by
    rw [htemps]
    exact h.found
  bound := by
    intro out hresult habove
    rw [htemps]
    obtain habove | hself := mem_append.mp habove
    · exact h.bound out hresult habove
    · unfold Routine.IsResult at hresult
      rw [mem_singleton.mp hself, hnode] at hresult
      exact (not_mem_nil hresult).elim
  mem_above := fun entry hentry => mem_append_left _ (h.mem_above entry hentry)
  subset := h.subset
  mem_path := fun entry hentry => mem_append_left _ (h.mem_path entry hentry)
  latest := by
    intro id hid hsockets
    obtain hid | hself := mem_append.mp hid
    · exact h.latest id hid hsockets
    · rw [mem_singleton.mp hself] at hsockets
      exact absurd hnode hsockets
  free := h.free
  numbered := by
    rw [hnext]
    exact h.numbered
  nodup := h.nodup

theorem bind (h : Ledger r above path bindings ledger own) {base : String} (hbase : base ∈ temporaryBases)
    {added : List (Endpoint × Code)} (htemps : bindings'.temporaries = added ++ bindings.temporaries)
    (hnext : bindings'.nextTemporary = bindings.number r base + 1)
    (hadded : ∀ entry ∈ added, entry.1.node = node.id ∧ r.IsResult entry.1
      ∧ entry.2.names = [bindings.temporary r base])
    (hall : ∀ socket ∈ r.resultSockets node.id, ∃ code, (⟨node.id, socket⟩, code) ∈ added)
    : Ledger r (above ++ [node.id]) (path ++ [node.id]) bindings'
        ((node.id, bindings.temporary r base) :: ledger)
        ((node.id, bindings.temporary r base) :: own) where
  found := by
    intro out code hlookup
    rw [htemps, lookup_append, Option.or_eq_some_iff] at hlookup
    obtain hnew | ⟨hnone, hold⟩ := hlookup
    · obtain ⟨hid, hresult, hnames⟩ := hadded _ (mem_of_lookup_eq_some hnew)
      refine ⟨hresult, _, ?_, hnames⟩
      simp only at hid
      rw [hid, lookup_cons_self]
    · obtain ⟨hresult, hname⟩ := h.found out code hold
      refine ⟨hresult, ?_⟩
      have hne : out.node ≠ node.id := by
        intro heq
        unfold Routine.IsResult at hresult
        rw [heq] at hresult
        obtain ⟨code', hmem⟩ := hall out.socket hresult
        rw [← heq] at hmem
        simpa [hnone] using isSome_lookup_of_mem hmem
      rwa [lookup_cons, beq_false_of_ne hne]
  bound := by
    intro out hresult habove
    rw [htemps, lookup_append, Option.isSome_or, Bool.or_eq_true]
    obtain habove | hself := mem_append.mp habove
    · exact .inr (h.bound out hresult habove)
    · have hid := mem_singleton.mp hself
      unfold Routine.IsResult at hresult
      rw [hid] at hresult
      obtain ⟨code, hmem⟩ := hall out.socket hresult
      rw [← hid] at hmem
      exact .inl (isSome_lookup_of_mem hmem)
  mem_above := by
    refine forall_mem_cons.mpr ⟨by simp, ?_⟩
    exact fun entry hentry => mem_append_left _ (h.mem_above entry hentry)
  subset := cons_subset_cons _ h.subset
  mem_path := by
    refine forall_mem_cons.mpr ⟨by simp, ?_⟩
    exact fun entry hentry => mem_append_left _ (h.mem_path entry hentry)
  latest := by
    intro id hid hsockets
    rw [lookup_cons, lookup_cons]
    split
    · rfl
    · next hne =>
      obtain hid | hself := mem_append.mp hid
      · exact h.latest id hid hsockets
      · simp [mem_singleton.mp hself] at hne
  free := forall_mem_cons.mpr ⟨bindings.temporary_not_mem_taken r hbase, h.free⟩
  numbered := by
    have hle := bindings.le_number r base
    refine forall_mem_cons.mpr ⟨⟨base, hbase, _, ?_, rfl⟩, ?_⟩
    · omega
    · intro entry hentry
      obtain ⟨base', hbase', n, hn, heq⟩ := h.numbered entry hentry
      exact ⟨base', hbase', n, by omega, heq⟩
  nodup := by
    refine nodup_cons.mpr ⟨?_, h.nodup⟩
    -- All numbers so far are smaller than that of the new name.
    intro hmem
    obtain ⟨entry, hentry, heq⟩ := mem_map.mp hmem
    obtain ⟨base', hbase', n, hn, heq'⟩ := h.numbered entry hentry
    have hnumber := numbered_inj hbase' hbase (heq'.symm.trans heq)
    have hle := bindings.le_number r base
    omega

theorem back {id : String} (names : List String)
    (h : Ledger r above (path ++ [id]) bindings ledger (names.map (id, ·) ++ own))
    (hown : ∀ entry ∈ own, entry.1 ∈ path) (hid : id ∉ path)
    : Ledger r above path bindings ledger own :=
  { h with
    subset := fun _ hentry => h.subset (mem_append_right _ hentry)
    mem_path := hown
    latest := by
      intro id' hid' hsockets
      have hne : id' ≠ id := fun heq => hid (heq ▸ hid')
      have hnone : (names.map (id, ·)).lookup id' = none := by
        rw [lookup_eq_none_iff]
        simp [hne]
      rw [h.latest id' (mem_append_left _ hid') hsockets, lookup_append, hnone, Option.none_or] }

end Ledger

theorem Routine.resultSockets_of_shape {r : Routine} (hnode : r.wiring.node? node.id = some node)
    (hshape : Shape.ofKind (r.kindOf node) ≠ .pass) : r.resultSockets node.id = [] := by
  unfold Routine.resultSockets
  rw [hnode]
  dsimp only
  split
  · next hkind => exact absurd (by rw [hkind]; rfl) hshape
  · next hkind => exact absurd (by rw [hkind]; rfl) hshape
  · rfl

theorem Bindings.bindResults_spec (bindings : Bindings) (node : Node) (result : String)
    {sig : Signature} (hreturns : sig.returns.length = sig.function.returns.length)
    : (bindings.bindResults node result sig).nextTemporary = bindings.nextTemporary
        ∧ ∃ added, (bindings.bindResults node result sig).temporaries = added ++ bindings.temporaries
          ∧ (∀ entry ∈ added, ∃ port ∈ sig.function.returns,
              entry.1 = ⟨node.id, port.id⟩ ∧ entry.2.names = [result])
          ∧ ∀ port ∈ sig.function.returns, ∃ code, (⟨node.id, port.id⟩, code) ∈ added := by
  have hfold : ∀ (fields : List (Port × String)) (bindings : Bindings),
      let bindings' := fields.foldl (fun bindings field =>
        bindings.bind ⟨node.id, field.1.id⟩ (.member result field.2)) bindings
      bindings'.nextTemporary = bindings.nextTemporary ∧ bindings'.temporaries
          = (fields.map fun field => ((⟨node.id, field.1.id⟩ : Endpoint), Code.member result field.2)).reverse
              ++ bindings.temporaries := by
    intro fields
    induction fields with
    | nil => simp
    | cons field fields ih =>
      intro bindings
      obtain ⟨hnext, htemps⟩ := ih (bindings.bind ⟨node.id, field.1.id⟩ (.member result field.2))
      refine ⟨hnext, ?_⟩
      rw [foldl_cons, htemps]
      simp [Bindings.bind]
  unfold Bindings.bindResults
  generalize sig.function.returns = ports at *
  obtain _ | ⟨port, _ | ⟨port', ports⟩⟩ := ports
  · exact ⟨rfl, [], rfl, forall_mem_nil _, forall_mem_nil _⟩
  · exact ⟨rfl, [(⟨node.id, port.id⟩, .ident result)], rfl, by simp [Code.names], by simp⟩
  · obtain ⟨hnext, htemps⟩ := hfold ((port :: port' :: ports).zip sig.returns) bindings
    refine ⟨hnext, _, htemps, ?_, ?_⟩
    · intro entry hentry
      obtain ⟨field, hfield, rfl⟩ := mem_map.mp (mem_reverse.mp hentry)
      exact ⟨field.1, (of_mem_zip hfield).1, rfl, rfl⟩
    · intro port hport
      rw [← map_fst_zip (Nat.le_of_eq hreturns.symm)] at hport
      obtain ⟨field, hfield, rfl⟩ := mem_map.mp hport
      exact ⟨_, mem_reverse.mpr (mem_map.mpr ⟨field, hfield, rfl⟩)⟩

theorem perm_append_append {names' before between after : List String} (h : between.Perm (names ++ before))
    (h' : after.Perm (names' ++ between)) : after.Perm (names ++ names' ++ before) := by
  refine h'.trans ((h.append_left names').trans ?_)
  rw [← append_assoc]
  exact perm_append_comm.append_right before

section Results

variable {r : Routine} {marks : Prop} {above path : List String} {all own : List (String × String)}

theorem Passes.ledger (h : Passes r marks node bindings items bindings')
    (hledger : Ledger r above path bindings all own) (hreserves : r.Reserves)
    (hnode : r.wiring.node? node.id = some node)
    : Ledger r (above ++ [node.id]) (path ++ [node.id]) bindings'
        ((bindersOf items).map (node.id, ·) ++ all) ((bindersOf items).map (node.id, ·) ++ own) := by
  have hskip : ∀ name, r.resultSockets node.id = []
      → Ledger r (above ++ [node.id]) (path ++ [node.id]) (bindings.declare name) all own :=
    fun name hsockets => hledger.skip hsockets (bindings.temporaries_declare name)
      (bindings.nextTemporary_declare name)
  cases h with
  | ask hkind _ | set hkind _ | create hkind =>
    simpa [bindersOf_append, bindersOf, Item.binders, Line.binds] using
      hskip _ (by simp [Routine.resultSockets, hnode, hkind])
  | print hkind _ | push hkind _ | store hkind _ _ =>
    simpa [bindersOf_append, bindersOf, Item.binders, Line.binds] using
      hledger.skip (by simp [Routine.resultSockets, hnode, hkind]) rfl rfl
  | callUnknown hkind hfunction _ =>
    simpa [bindersOf_append, bindersOf, Item.binders, Line.binds] using
      hledger.skip (by simp [Routine.resultSockets, hnode, hkind, hfunction]) rfl rfl
  | callNothing hkind hfunction _ hreturns =>
    simpa [bindersOf_append, bindersOf, Item.binders, Line.binds] using
      hledger.skip (by simp [Routine.resultSockets, hnode, hkind, hfunction, hreturns]) rfl rfl
  | pop hkind =>
    have hsockets : r.resultSockets node.id = ["value"] := by
      simp [Routine.resultSockets, hnode, hkind]
    have hadded : ∀ entry ∈ [((⟨node.id, "value"⟩ : Endpoint), Code.ident (bindings.temporary r "__pop"))],
        entry.1.node = node.id ∧ r.IsResult entry.1 ∧ entry.2.names = [bindings.temporary r "__pop"] := by
      simp [Routine.IsResult, hsockets, Code.names]
    simpa [bindersOf_append, bindersOf, Item.binders, Line.binds] using
      hledger.bind (by decide) rfl rfl hadded (by simp [hsockets])
  | @call sig _ hkind hfunction _ _ =>
    have hsockets : r.resultSockets node.id = sig.function.returns.map Port.id := by
      simp [Routine.resultSockets, hnode, hkind, hfunction]
    have hreturns := (hreserves.functions _ (Signatures.mem_of_get?_eq_some hfunction)).returns
    obtain ⟨hnext, added, htemps, hadded, hall⟩ := (bindings.take r "__ret").bindResults_spec
      node (bindings.temporary r "__ret") hreturns
    have hentries : ∀ entry ∈ added, entry.1.node = node.id ∧ r.IsResult entry.1
        ∧ entry.2.names = [bindings.temporary r "__ret"] := by
      intro entry hentry
      obtain ⟨port, hport, heq, hnames⟩ := hadded entry hentry
      rw [heq]
      exact ⟨rfl, by simpa [Routine.IsResult, hsockets] using ⟨port, hport, rfl⟩, hnames⟩
    have hports : ∀ socket ∈ r.resultSockets node.id, ∃ code, (⟨node.id, socket⟩, code) ∈ added := by
      simpa [hsockets] using hall
    simpa [bindersOf_append, bindersOf, Item.binders, Line.binds] using
      hledger.bind (by decide) htemps hnext hentries hports
  | other hkind =>
    refine hledger.skip ?_ rfl rfl
    unfold Routine.resultSockets
    rw [hnode]
    cases hkind' : r.kindOf node <;> simp_all [passKinds]

theorem Heads.ledger (h : Heads r marks node bindings head bindings')
    (hledger : Ledger r above path bindings all own) (hsockets : r.resultSockets node.id = [])
    : Ledger r (above ++ [node.id]) (path ++ [node.id]) bindings' all own := by
  cases h with
  | forLoop =>
    exact hledger.skip hsockets (bindings.temporaries_declare _) (bindings.nextTemporary_declare _)
  | whileLoop => exact hledger.skip hsockets rfl rfl

theorem Emits.ledger {tour : Tour} (h : Emits r marks tour bindings items bindings')
    (hreserves : r.Reserves) {depth : Nat} (hfollows : tour.Follows r depth path)
    (hledger : Ledger r above path bindings all own)
    : ∃ all', Ledger r (above ++ tour.ids) path bindings' all' own
        ∧ (all'.map Prod.snd).Perm (bindersOf items ++ all.map Prod.snd) := by
  induction h generalizing depth above path all own with
  | stop | cut => exact ⟨all, by simpa [Tour.ids, Tour.nodes] using hledger, .refl _⟩
  | @pass node rest _ _ _ items items' h _ ih =>
    obtain ⟨hmeets, hrest⟩ := hfollows
    obtain ⟨all', hall', hperm⟩ := ih hrest (h.ledger hledger hreserves hmeets.found)
    refine ⟨all', ?_, ?_⟩
    · simpa [Tour.ids, Tour.nodes] using hall'.back _ hledger.mem_path hmeets.fresh
    · rw [bindersOf_append]
      simp only [map_append, map_map, Function.comp_def, map_id'] at hperm
      exact perm_append_append (.refl _) hperm
  | last h =>
    have hskip := hledger.skip (Routine.resultSockets_of_shape hfollows.found (by simp [hfollows.shape])) rfl rfl
    refine ⟨all, ?_, by rw [h.binders]; exact .refl _⟩
    exact Ledger.back [] hskip hledger.mem_path hfollows.fresh
  | @branch node onTrue onFalse _ _ _ _ items items' _ _ _ ihTrue ihFalse =>
    obtain ⟨hmeets, -, htrue, hfalse⟩ := hfollows
    have hskip := hledger.skip (Routine.resultSockets_of_shape hmeets.found (by simp [hmeets.shape])) rfl rfl
    obtain ⟨all', hall', hperm⟩ := ihTrue htrue hskip
    obtain ⟨all'', hall'', hperm'⟩ := ihFalse hfalse hall'
    refine ⟨all'', ?_, ?_⟩
    · simpa [Tour.ids, Tour.nodes] using Ledger.back [] hall'' hledger.mem_path hmeets.fresh
    · rw [bindersOf_append]
      simpa [bindersOf, Item.binders] using perm_append_append hperm hperm'
  | @loop node body rest _ _ _ _ head items items' hhead _ _ ihBody ihRest =>
    obtain ⟨hmeets, -, hbody, hrest⟩ := hfollows
    have hskip := hhead.ledger hledger (Routine.resultSockets_of_shape hmeets.found (by simp [hmeets.shape]))
    obtain ⟨all', hall', hperm⟩ := ihBody hbody hskip
    obtain ⟨all'', hall'', hperm'⟩ := ihRest hrest hall'
    refine ⟨all'', ?_, ?_⟩
    · simpa [Tour.ids, Tour.nodes] using Ledger.back [] hall'' hledger.mem_path hmeets.fresh
    · rw [bindersOf_append, bindersOf_append]
      simpa [bindersOf, hhead.binders] using perm_append_append hperm hperm'

end Results

def Suffices (exactly p q : Prop) : Prop :=
  (p → q) ∧ (exactly → q → p)

theorem Suffices.and {p q p' q' : Prop} (h : Suffices exactly p q) (h' : Suffices exactly p' q')
    : Suffices exactly (p ∧ p') (q ∧ q') :=
  ⟨fun hp => ⟨h.1 hp.1, h'.1 hp.2⟩, fun hexactly hq => ⟨h.2 hexactly hq.1, h'.2 hexactly hq.2⟩⟩

theorem Suffices.congr {p q p' q' : Prop} (h : Suffices exactly p q) (hp : p' ↔ p) (hq : q' ↔ q)
    : Suffices exactly p' q' := by
  rwa [hp, hq]

theorem Ledger.suffices_readsFrom {r : Routine} {above path : List String} {all own : List (String × String)}
    (h : Ledger r above path bindings all own) (hreserves : r.Reserves) {marks : Prop}
    (hshows : Shows r bindings.temporaries marks node codes) (htemps : ∀ name ∈ temps, name ∉ r.functions.taken)
    (hseen : ∀ name, name ∈ seen ↔ name ∈ own.map Prod.snd)
    (hexactly : exactly → ¬ marks ∧ all.map Prod.snd ⊆ temps) (place : Place)
    (hplace : place.node = node ∧ place.above = above)
    : Suffices exactly (place.ReadsFrom r path) (∀ code ∈ codes, Known temps seen code.names) := by
  obtain ⟨rfl, rfl⟩ := hplace
  constructor
  · intro hreads code hcode name hname htemporary
    obtain hnone | ⟨socket, hsocket, source, hsource, hunfolds⟩ := hshows.read code hcode
    · rw [hnone] at hname
      exact (not_mem_nil hname).elim
    · obtain ⟨out, hpath, result, hresult, hname⟩ :=
        hunfolds.result_of_mem_names hreserves hname (htemps name htemporary)
      obtain ⟨hisResult, name', hentry, hnames⟩ := h.found out result hresult
      rw [hnames, mem_singleton] at hname
      subst hname
      have habove := h.mem_above _ (mem_of_lookup_eq_some hentry)
      have hown := hreads socket hsocket source hsource out hpath hisResult habove
      rw [h.latest out.node hown (ne_nil_of_mem hisResult)] at hentry
      exact (hseen name).mpr (mem_map_of_mem (mem_of_lookup_eq_some hentry))
  · intro hexact hknown socket hsocket source hsource out hpath hisResult habove
    obtain ⟨hmarks, hall⟩ := hexactly hexact
    obtain ⟨code, hcode, hunfolds⟩ := hshows.shown socket hsocket source hsource
    obtain ⟨result, hresult⟩ := Option.isSome_iff_exists.mp (h.bound out hisResult habove)
    obtain ⟨-, name, hentry, hnames⟩ := h.found out result hresult
    have hmem := mem_of_lookup_eq_some hentry
    have hname : name ∈ code.names :=
      hunfolds.names_result_subset hmarks hpath hisResult hresult (by simp [hnames])
    have hown := (hseen name).mp (hknown code hcode name hname (hall (mem_map_of_mem hmem)))
    -- A temporary name belongs to one node.
    obtain ⟨entry, hentry', heq⟩ := mem_map.mp hown
    have hnode := h.mem_path entry hentry'
    rwa [inj_on_of_nodup_map h.nodup (h.subset hentry') hmem heq] at hnode

theorem mem_seen_below {flat : Bool} {all all' own : List (String × String)}
    (hseen : ∀ name, name ∈ seen ↔ name ∈ (if flat then all else own).map Prod.snd)
    (hperm : (all'.map Prod.snd).Perm (names ++ all.map Prod.snd)) (name : String)
    : name ∈ seen ++ (if flat then names else []) ↔ name ∈ (if flat then all' else own).map Prod.snd := by
  rw [mem_append, hseen]
  cases flat with
  | true =>
    simp only [if_true]
    rw [hperm.mem_iff, mem_append]
    exact or_comm
  | false => simp

def Place.inSight (place : Place) (flat : Bool) : List String :=
  if flat then place.above else place.path

section Scopes

variable {r : Routine} {marks : Prop} {above path : List String} {all own : List (String × String)}
  {flat : Bool} {temps seen : List String}
  (hreserves : r.Reserves) (htemps : ∀ name ∈ temps, name ∉ r.functions.taken)
  {exactly : Prop} (hseen : ∀ name, name ∈ seen ↔ name ∈ (if flat then all else own).map Prod.snd)
  (hexactly : exactly → ¬ marks ∧ all.map Prod.snd ⊆ temps)

include hreserves htemps hseen hexactly

theorem Ledger.suffices_inSight (h : Ledger r above path bindings all own)
    (hshows : Shows r bindings.temporaries marks node codes)
    : Suffices exactly ((⟨node, above, path⟩ : Place).ReadsFrom r (Place.inSight ⟨node, above, path⟩ flat))
        (∀ code ∈ codes, Known temps seen code.names) := by
  cases flat with
  | true => exact h.flat.suffices_readsFrom hreserves hshows htemps hseen hexactly _ ⟨rfl, rfl⟩
  | false => exact h.suffices_readsFrom hreserves hshows htemps hseen hexactly _ ⟨rfl, rfl⟩

theorem Emits.suffices_inSight {tour : Tour} (h : Emits r marks tour bindings items bindings') {depth : Nat}
    (hfollows : tour.Follows r depth path) (hledger : Ledger r above path bindings all own)
    (hitems : exactly → bindersOf items ⊆ temps)
    : Suffices exactly (∀ place ∈ tour.places above path, place.ReadsFrom r (place.inSight flat))
        (SeesAll flat temps seen items) := by
  induction h generalizing depth above path all own seen with
  | stop => exact ⟨fun _ => trivial, fun _ _ _ hplace => (not_mem_nil hplace).elim⟩
  | cut =>
    refine ⟨fun _ => ⟨?_, trivial⟩, fun _ _ _ hplace => (not_mem_nil hplace).elim⟩
    intro name hname
    exact (not_mem_nil hname).elim
  | @pass node rest _ _ _ items items' h _ ih =>
    obtain ⟨hmeets, hrest⟩ := hfollows
    obtain ⟨codes, hshows, hsees⟩ :=
      h.shows hreserves (Wiring.mem_of_node?_eq_some hmeets.found) hmeets.shape
    simp only [bindersOf_append, append_subset] at hitems
    have hnode := hledger.suffices_inSight hreserves htemps hseen hexactly hshows
    have hnames : ((bindersOf items).map (node.id, ·)).map Prod.snd = bindersOf items := by
      rw [map_map]
      exact map_id _
    have hseen' : ∀ name, name ∈ seen ++ bindersOf items
        ↔ name ∈ (if flat then (bindersOf items).map (node.id, ·) ++ all
            else (bindersOf items).map (node.id, ·) ++ own).map Prod.snd := by
      intro name
      rw [mem_append, hseen, or_comm]
      cases flat <;> simp [hnames]
    have hexactly' : exactly → ¬ marks ∧ ((bindersOf items).map (node.id, ·) ++ all).map Prod.snd ⊆ temps := by
      intro hexact
      rw [map_append, hnames, append_subset]
      exact ⟨(hexactly hexact).1, (hitems hexact).1, (hexactly hexact).2⟩
    have hsuffices := ih hseen' hexactly' hrest (h.ledger hledger hreserves hmeets.found)
      fun hexact => (hitems hexact).2
    refine (hnode.and hsuffices).congr forall_mem_cons ?_
    rw [seesAll_append, h.exposes, hsees flat temps seen htemps]
  | @last node _ _ h =>
    obtain ⟨codes, hshows, hsees⟩ := h.shows hreserves hfollows.shape
    exact (hledger.suffices_inSight hreserves htemps hseen hexactly hshows).congr
      forall_mem_singleton (hsees flat temps seen htemps)
  | @branch node onTrue onFalse _ _ _ _ items items' hcond htrue _ ihTrue ihFalse =>
    obtain ⟨hmeets, -, hfollows, hfollows'⟩ := hfollows
    have hshows := Shows.of_forall₂ (by simp [Routine.statementSockets, Shape.eq_branch_of_ofKind hmeets.shape])
      (.cons hcond.isSupplied .nil)
    simp only [bindersOf_append, bindersOf_enter, nil_append, bindersOf, Item.binders,
      append_nil, append_subset] at hitems
    have hnode := hledger.suffices_inSight hreserves htemps hseen hexactly hshows
    have hskip := hledger.skip (Routine.resultSockets_of_shape hmeets.found (by simp [hmeets.shape])) rfl rfl
    obtain ⟨all', hledger', hperm⟩ := htrue.ledger hreserves hfollows hskip
    have hexactly' : exactly → ¬ marks ∧ all'.map Prod.snd ⊆ temps := fun hexact =>
      ⟨(hexactly hexact).1, fun _ hname => append_subset.mpr
        ⟨(hitems hexact).1, (hexactly hexact).2⟩ (hperm.subset hname)⟩
    have hsuffices := ihTrue hseen hexactly hfollows hskip fun hexact => (hitems hexact).1
    have hsuffices' := ihFalse (mem_seen_below hseen hperm) hexactly' hfollows' hledger' fun hexact => (hitems hexact).2
    refine (hnode.and (hsuffices.and hsuffices')).congr
      (forall_mem_cons.trans (and_congr_right fun _ => forall_mem_append)) ?_
    rw [seesAll_append]
    simp [seesAll_enter, SeesAll, Item.Sees]
  | @loop node body rest _ _ _ _ head items items' hhead hbody _ ihBody ihRest =>
    obtain ⟨hmeets, -, hfollows, hfollows'⟩ := hfollows
    obtain ⟨codes, hshows, hsees⟩ :=
      hhead.shows hreserves (Wiring.mem_of_node?_eq_some hmeets.found) hmeets.shape
    simp only [bindersOf_append, bindersOf_enter, nil_append, bindersOf, hhead.binders,
      append_nil, append_subset] at hitems
    have hnode := hledger.suffices_inSight hreserves htemps hseen hexactly hshows
    have hskip := hhead.ledger hledger (Routine.resultSockets_of_shape hmeets.found (by simp [hmeets.shape]))
    obtain ⟨all', hledger', hperm⟩ := hbody.ledger hreserves hfollows hskip
    have hexactly' : exactly → ¬ marks ∧ all'.map Prod.snd ⊆ temps := fun hexact =>
      ⟨(hexactly hexact).1, fun _ hname => append_subset.mpr
        ⟨(hitems hexact).1, (hexactly hexact).2⟩ (hperm.subset hname)⟩
    have hsuffices := ihBody hseen hexactly hfollows hskip fun hexact => (hitems hexact).1
    have hsuffices' := ihRest (mem_seen_below hseen hperm) hexactly' hfollows' hledger' fun hexact => (hitems hexact).2
    refine (hnode.and (hsuffices.and hsuffices')).congr
      (forall_mem_cons.trans (and_congr_right fun _ => forall_mem_append)) ?_
    rw [seesAll_append, seesAll_append]
    simp [seesAll_enter, SeesAll, hsees flat temps seen htemps, hhead.exposes, and_assoc]

end Scopes

/-- Of the results that have been bound above, each statement reads only those of nodes on the path that
leads to it. -/
def Outset.OwnResults (outset : Outset) : Prop :=
  ∀ place ∈ outset.tour.places [] [], place.ReadsFrom outset.routine place.path

namespace Job

/-- A temporary name is new, is bound by one line, and stands only below that line. It stands only in
the block of that line, or in blocks inside that block, if no statement reads a result that was bound
above but not on the path to it; and, if nothing is reported, only then. -/
theorem temporaries_inScope (job : Job) {outset : Outset} (h : outset ∈ job.outsets)
    : let items := outset.compiled.1
      (bindersOf items).Nodup ∧ (∀ name ∈ bindersOf items, name ∉ outset.routine.functions.taken)
        ∧ SeesAll true (bindersOf items) [] items
        ∧ (outset.OwnResults → SeesAll false (bindersOf items) [] items)
        ∧ (outset.compiled.2 = [] → SeesAll false (bindersOf items) [] items → outset.OwnResults) := by
  intro items
  have hreserves := reserves_of_mem_outsets h
  have hfollows := follows_of_mem_outsets h
  obtain ⟨bindings, hemits⟩ := outset.routine.emits_compileFrom outset.entry outset.depth
  have hledger : Ledger outset.routine [] [] outset.routine.start.bindings [] [] :=
    ⟨nofun, nofun, nofun, List.Subset.refl _, nofun, nofun, nofun, nofun, nodup_nil⟩
  obtain ⟨all, hledger', hperm⟩ := hemits.ledger hreserves hfollows hledger
  rw [map_nil, append_nil] at hperm
  have hfree : ∀ name ∈ bindersOf items, name ∉ outset.routine.functions.taken := by
    intro name hname
    obtain ⟨entry, hentry, rfl⟩ := mem_map.mp (hperm.mem_iff.mpr hname)
    exact hledger'.free entry hentry
  have hsuffices : ∀ flat, Suffices (outset.compiled.2 = [])
      (∀ place ∈ outset.tour.places [] [], place.ReadsFrom outset.routine (place.inSight flat))
      (SeesAll flat (bindersOf items) [] items) := by
    intro flat
    refine hemits.suffices_inSight hreserves hfree ?_ ?_ hfollows hledger fun _ => List.Subset.refl _
    · cases flat <;> exact fun _ => Iff.rfl
    · exact fun hnone => ⟨fun hmarked => hmarked hnone, nil_subset _⟩
  exact ⟨hperm.nodup_iff.mp hledger'.nodup, hfree,
    (hsuffices true).1 fun _ _ _ _ _ _ _ _ _ habove => habove, hsuffices false⟩

def ownPops : Graph where
  nodes :=
    [⟨"start", .start, none, {}⟩, ⟨"create", .arrayCreate, none, {}⟩, ⟨"pop", .arrayPop, none, {}⟩,
     ⟨"if", .branch, none, {}⟩, ⟨"pop again", .arrayPop, none, {}⟩, ⟨"show", .output, none, {}⟩,
     ⟨"show other", .output, none, {}⟩]
  edges :=
    [.control "start" "exec-out" "create", .control "create" "exec-out" "pop",
     .control "pop" "exec-out" "if", .control "if" "true" "pop again",
     .control "pop again" "exec-out" "show", .control "if" "false" "show other",
     .data "pop again" "value" "show" "value", .data "pop" "value" "show other" "value"]

theorem temporaries_inScope_ownPops
    : let job : Job := ⟨ownPops, .default, {}⟩
      let outset : Outset := ⟨job.mainRoutine, ⟨"start", .start, none, {}⟩, 0⟩
      outset ∈ job.outsets ∧ outset.OwnResults ∧ SeesAll false (bindersOf outset.compiled.1) [] outset.compiled.1 := by
  intro job outset
  have h : outset ∈ job.outsets := mem_singleton_self _
  have hsources : ∀ place ∈ outset.tour.places [] [], ∀ socket ∈ outset.routine.statementSockets place.node,
      ∀ source ∈ outset.routine.wiring.source? place.node.id socket, outset.routine.dependencies source = []
          ∧ (source.node ∈ place.above → source.node ∈ place.path) := by decide +kernel
  have hown : outset.OwnResults := by
    intro place hplace socket hsocket source hsource output hpath _ habove
    obtain ⟨hnone, hsource⟩ := hsources place hplace socket hsocket source hsource
    obtain rfl | ⟨next, -, hnext⟩ := hpath.cases_tail
    · exact hsource habove
    · rw [Routine.IsSource, hnone] at hnext
      exact (not_mem_nil hnext).elim
  exact ⟨h, hown, (temporaries_inScope job h).2.2.2.1 hown⟩

def crossedPop : Graph where
  nodes :=
    [⟨"start", .start, none, {}⟩, ⟨"create", .arrayCreate, none, {}⟩,
     ⟨"if", .branch, none, { inlineValues := .ofList [("condition", "false")] }⟩,
     ⟨"pop", .arrayPop, none, {}⟩, ⟨"show", .output, none, {}⟩]
  edges :=
    [.control "start" "exec-out" "create", .control "create" "exec-out" "if",
     .control "if" "true" "pop", .control "if" "false" "show", .data "pop" "value" "show" "value"]

theorem crossedPop_outOfScope
    : let job : Job := ⟨crossedPop, .default, {}⟩
      job.compile.diagnostics = []
        ∧ ∃ outset ∈ job.outsets, ¬ SeesAll false (bindersOf outset.compiled.1) [] outset.compiled.1 := by
  decide +kernel

end Job

end NodeScript.Compile
