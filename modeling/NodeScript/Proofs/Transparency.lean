import Mathlib.Algebra.GroupWithZero.Nat
import Mathlib.Algebra.Order.BigOperators.Group.List
import Mathlib.Algebra.Order.Group.Nat
import NodeScript.Proofs.Bounds
import NodeScript.Proofs.Notices
import NodeScript.Proofs.Programs
import NodeScript.Proofs.Shadows
import NodeScript.Proofs.Temporaries

/-!
Instrumentation does not change what a program does: unless the names that notices call are taken, a
program logs, asks and ends like the one without notices.
-/

namespace NodeScript.Script

open List

theorem Stmt.AllAkin.mono {leeway : Leeway} {n n' : Nat} {stmts stmts' : List Stmt}
    (h : Stmt.AllAkin leeway n stmts stmts') (hn : n ≤ n') : Stmt.AllAkin leeway n' stmts stmts' :=
  match n', h, hn with
  | n', .nil _, _ => .nil n'
  | _ + 1, .skip hskips hrest, hn => .skip hskips (hrest.mono (Nat.le_of_succ_le_succ hn))
  | _, .cons hstmt hrest, _ => .cons hstmt hrest
  | _, .echo hstmt hechoes hrest, _ => .echo hstmt hechoes hrest

end NodeScript.Script

namespace NodeScript.Compile

open List

variable {bindings bindings' : Bindings}

open Build Script

structure Routine.Heralds (r : Routine) : Prop where
  instrument : r.instrument = true
  names : ∀ node ∈ r.wiring.nodes, ∀ default ∈ defaultBindings, variableOf node default ∉ noticeNames

theorem numbered_not_mem_noticeNames {base : String} (hbase : base ∈ temporaryBases) (n : Nat)
    : base ++ "_" ++ Nat.repr n ∉ noticeNames := by
  have hchars : ∀ base ∈ temporaryBases, ∀ name ∈ noticeNames, base.toList ≠ name.toList.take base.toList.length := by
    decide
  intro hmem
  refine hchars base hbase _ hmem ?_
  rw [String.append_assoc, String.toList_append, take_left]

theorem akin_bindTree {streak : Nat} (fresh : Bool) {name : String} (h : name ∉ noticeNames) (value : Expr)
    : (bindTree fresh name value).Akin (.notices streak) (bindTree fresh name value) := by
  cases fresh with
  | true => exact .declare h _
  | false =>
    refine .assign ?_ _ _
    rintro _ ⟨⟩
    exact h

theorem writes_bindTree (fresh : Bool) (name : String) (value : Expr) : (bindTree fresh name value).Writes name := by
  cases fresh with
  | true => exact .declare _
  | false => exact .assign _ _

variable {marks : Prop} {items : List Item} {l : Line} {node : Node}

section Items

variable {r : Routine} (hheralds : r.Heralds) {streak n : Nat} {rest rest' : List Stmt}
include hheralds

theorem akin_enter (node : Node) (h : Stmt.AllAkin (.notices streak) n rest rest')
    : Stmt.AllAkin (.notices streak) (n + 1) (treesOf (enter r node) ++ rest)
        (treesOf (silenceAll (enter r node)) ++ rest') := by
  rw [silenceAll_enter, enter, if_pos hheralds.instrument]
  exact .skip ⟨node.id, rfl⟩ h

theorem akin_written (node : Node) {name : String} {stmt : Stmt} (htree : l.tree? = some stmt)
    (hnotice : l.isNotice = false) (hstmt : stmt.Akin (.notices streak) stmt) (hwrites : stmt.Writes name)
    (h : Stmt.AllAkin (.notices streak) streak rest rest')
    : Stmt.AllAkin (.notices streak) (n + 1) (treesOf (enter r node ++ [.line l] ++ notify r name) ++ rest)
        (treesOf (silenceAll (enter r node ++ [.line l] ++ notify r name)) ++ rest') := by
  have hechoes : (Leeway.notices streak).echoes stmt (.updating name) := ⟨name, hwrites, rfl⟩
  have hnotify : treesOf (notify r name) = [.expr (.updating name)] := by
    rw [notify, if_pos hheralds.instrument]
    rfl
  simpa [silenceAll, Item.silence, hnotice, treesOf, Item.trees, htree, hnotify] using
    akin_enter hheralds node (n := n) (.echo hstmt hechoes h)

theorem akin_line (node : Node) {stmt : Stmt} (htree : l.tree? = some stmt) (hnotice : l.isNotice = false)
    (hstmt : stmt.Akin (.notices streak) stmt) (h : Stmt.AllAkin (.notices streak) streak rest rest')
    : Stmt.AllAkin (.notices streak) (n + 1) (treesOf (enter r node ++ [.line l]) ++ rest)
        (treesOf (silenceAll (enter r node ++ [.line l])) ++ rest') := by
  simpa [silenceAll, Item.silence, hnotice, treesOf, Item.trees, htree] using
    akin_enter hheralds node (n := n) (.cons hstmt h)

theorem akin_comment (node : Node) (htree : l.tree? = none) (h : Stmt.AllAkin (.notices streak) n rest rest')
    : Stmt.AllAkin (.notices streak) (n + 1) (treesOf (enter r node ++ [.line l]) ++ rest)
        (treesOf (silenceAll (enter r node ++ [.line l])) ++ rest') := by
  have hsilent : treesOf (silenceAll [.line l]) = [] := by
    rw [silenceAll, Item.silence]
    split <;> simp [treesOf, Item.trees, htree]
  simpa [hsilent, treesOf, Item.trees, htree] using akin_enter hheralds node h

theorem Passes.akin (h : Passes r marks node bindings items bindings') (hnode : node ∈ r.wiring.nodes)
    (hrest : Stmt.AllAkin (.notices streak) n rest rest') (hn : n ≤ streak)
    : Stmt.AllAkin (.notices streak) (n + 1) (treesOf items ++ rest) (treesOf (silenceAll items) ++ rest') := by
  have hvariable := hheralds.names node hnode
  have hrest' := hrest.mono hn
  cases h with
  | print | callNothing => exact akin_line hheralds node rfl rfl (.expr _) hrest'
  | ask | set | create =>
    exact akin_written hheralds node rfl rfl (akin_bindTree _ (hvariable _ (by decide)) _) (writes_bindTree _ _ _)
      hrest'
  | push => exact akin_written hheralds node rfl rfl (.expr _) (.push _) hrest'
  | pop =>
    have htemporary : bindings.temporary r "__pop" ∉ noticeNames :=
      numbered_not_mem_noticeNames (by decide) _
    exact akin_written hheralds node rfl rfl (.declare htemporary _) (.pop _) hrest'
  | store =>
    refine akin_written hheralds node rfl rfl (.assign ?_ _ _) (.store _ _ _) hrest'
    rintro name ⟨⟩
  | callUnknown => exact akin_comment hheralds node rfl hrest
  | call =>
    have htemporary : bindings.temporary r "__ret" ∉ noticeNames :=
      numbered_not_mem_noticeNames (by decide) _
    exact akin_line hheralds node rfl rfl (.declare htemporary _) hrest'
  | other => exact hrest.mono (Nat.le_succ n)

theorem Ends.akin {temps : List (Endpoint × Code)} (h : Ends r marks node temps items)
    : Stmt.AllAkin (.notices streak) 1 (treesOf items) (treesOf (silenceAll items)) := by
  have hline {l : Line} {stmt : Stmt} (htree : l.tree? = some stmt) (hnotice : l.isNotice = false)
      (hstmt : stmt.Akin (.notices streak) stmt)
      : Stmt.AllAkin (.notices streak) 1 (treesOf (enter r node ++ [.line l]))
          (treesOf (silenceAll (enter r node ++ [.line l]))) := by
    simpa using akin_line hheralds node htree hnotice hstmt (n := 0) (.nil streak)
  cases h with
  | stop => simpa using akin_enter hheralds node (.nil 0)
  | breakLoop => exact hline rfl rfl .breakLoop
  | continueLoop => exact hline rfl rfl .continueLoop
  | @returnFrom sig values =>
    match values with
    | [] | [_] | _ :: _ :: _ => exact hline rfl rfl (.returnValue _)
  | other => exact .nil 1

theorem Heads.akin {head : List Item → Item} (h : Heads r marks node bindings head bindings')
    (hnode : node ∈ r.wiring.nodes)
    (hbody : Stmt.AllAkin (.notices streak) n (treesOf items) (treesOf (silenceAll items))) (hn : n + 1 ≤ streak)
    : ∃ stmt stmt', (head items).trees = [stmt] ∧ treesOf (head items).silence = [stmt']
        ∧ stmt.Akin (.notices streak) stmt' := by
  cases h with
  | @forLoop start limit step =>
    have hname := hheralds.names node hnode "i" (by decide)
    have hreserved : variableOf node "i" ∉ reservedWords := sanitize_not_mem_reservedWords _
    have hopens : (Leeway.notices streak).opens (.binary .less (.identifier (variableOf node "i")) limit.tree)
        (.entering node.id) (.updating (variableOf node "i")) :=
      ⟨_, _, _, limit.calm_tree, fun heq => hreserved (by simp [heq, reservedWords]),
        fun heq => hreserved (by simp [heq, reservedWords]), rfl, rfl, rfl⟩
    refine ⟨_, _, rfl, rfl, ?_⟩
    rw [enter, notify, if_pos hheralds.instrument, if_pos hheralds.instrument]
    refine .forEach ?_ hopens ?_ (hbody.mono (Nat.le_of_succ_le hn))
    · rintro _ ⟨⟩
      exact .declare hname _
    · rintro _ ⟨⟩
      refine .assign ?_ _ _
      rintro _ ⟨⟩
      exact hname
  | @whileLoop cond =>
    refine ⟨_, _, rfl, rfl, .whileLoop _ ?_⟩
    rw [treesOf_append, silenceAll_append, treesOf_append]
    exact (akin_enter hheralds node hbody).mono hn

theorem Emits.akin {tour : Tour} (h : Emits r marks tour bindings items bindings') {depth : Nat}
    {passed : List String} (hfollows : tour.Follows r depth passed) (hlength : tour.nodes.length ≤ streak)
    : Stmt.AllAkin (.notices streak) tour.nodes.length (treesOf items) (treesOf (silenceAll items)) := by
  induction h generalizing depth passed with
  | stop | cut => exact .nil 0
  | pass h _ ih =>
    obtain ⟨hmeets, hrest⟩ := hfollows
    rw [Tour.nodes, length_cons] at hlength ⊢
    rw [treesOf_append, silenceAll_append, treesOf_append]
    exact h.akin hheralds (Wiring.mem_of_node?_eq_some hmeets.found) (ih hrest (by omega)) (by omega)
  | last h => exact h.akin hheralds
  | branch _ _ _ ihTrue ihFalse =>
    obtain ⟨-, -, htrue, hfalse⟩ := hfollows
    rw [Tour.nodes, length_cons, length_append] at hlength ⊢
    have hthen := (ihTrue htrue (by omega)).mono (show _ ≤ streak by omega)
    have helse := (ihFalse hfalse (by omega)).mono (show _ ≤ streak by omega)
    rw [treesOf_append, silenceAll_append, treesOf_append]
    exact akin_enter hheralds _ (.cons (.ifElse _ hthen helse) (.nil streak))
  | loop hhead _ _ ihBody ihRest =>
    obtain ⟨hmeets, -, hbody, hrest⟩ := hfollows
    rw [Tour.nodes, length_cons, length_append] at hlength ⊢
    obtain ⟨stmt, stmt', htrees, hsilent, hstmt⟩ := hhead.akin hheralds (Wiring.mem_of_node?_eq_some hmeets.found)
      (ihBody hbody (by omega)) (by omega)
    have hafter := (ihRest hrest (by omega)).mono (show _ ≤ streak by omega)
    simpa [treesOf, silenceAll, htrees, hsilent] using akin_enter hheralds _ (.cons hstmt hafter)

end Items

mutual

theorem Item.fitsAll_silence {p : Code → Prop} : {item : Item} → {room : Nat} → item.Fits p room
    → FitsAll p room item.silence
  | .line _, _, h => by
    rw [Item.silence]
    split
    · trivial
    · exact .single h
  | .ifElse _ _ _, _ + 1, h => .single ⟨h.1, fitsAll_silenceAll h.2.1, fitsAll_silenceAll h.2.2⟩
  | .whileLoop _ _, _ + 1, h => .single ⟨h.1, fitsAll_silenceAll h.2⟩
  | .forLoop _ _ _ _ _, _ + 1, h =>
    .single ⟨h.1, h.2.1, h.2.2.1, h.2.2.2.1, fitsAll_silenceAll h.2.2.2.2⟩

theorem fitsAll_silenceAll {p : Code → Prop} : {items : List Item} → {room : Nat} → FitsAll p room items
    → FitsAll p room (silenceAll items)
  | [], _, _ => trivial
  | _ :: _, _, h => (Item.fitsAll_silence h.1).append (fitsAll_silenceAll h.2)

end

namespace Job

open List

theorem readable_silent {job : Job} (h : ∀ outset ∈ job.outsets, outset.Readable)
    : ∀ outset ∈ job.silent.outsets, outset.Readable := by
  rw [outsets_silent]
  intro outset houtset
  obtain ⟨outset, hmem, rfl⟩ := mem_map.mp houtset
  rw [Outset.Readable, outset.compiled_silent]
  exact fitsAll_silenceAll (h outset hmem)

theorem code_of_compileMain?_eq_none {job : Job} (h : job.compileMain? (.ofGraph job.graph) = none)
    : job.compile.code = "// Error: No start node found" := by
  unfold compile
  dsimp only
  rw [h]

def streak (job : Job) : Nat :=
  (job.outsets.map fun outset => outset.tour.nodes.length).sum

variable {job : Job} (hinstrument : job.options.instrument = true)
  (hnames : ∀ name ∈ noticeNames, name ∉ (Signatures.ofGraph job.graph).taken)
include hinstrument hnames

theorem akin_compiled {outset : Outset} (h : outset ∈ job.outsets)
    : Stmt.AllAkin (.notices job.streak) job.streak (treesOf outset.compiled.1) (treesOf outset.silent.compiled.1) := by
  have hroutine := routine_of_mem_outsets h
  have hheralds : outset.routine.Heralds := by
    refine ⟨hroutine.1.trans hinstrument, fun node hnode default hdefault hmem => hnames _ hmem ?_⟩
    rw [← hroutine.2]
    exact (reserves_of_mem_outsets h).bound node hnode default hdefault
  have hlength : outset.tour.nodes.length ≤ job.streak :=
    single_le_sum (fun _ _ => Nat.zero_le _) _ (mem_map_of_mem h)
  obtain ⟨bindings, hemits⟩ := outset.routine.emits_compileFrom outset.entry outset.depth
  rw [outset.compiled_silent]
  exact (hemits.akin hheralds (follows_of_mem_outsets h) hlength).mono hlength

theorem akin_function {sig : Signature} (h : sig ∈ (Signatures.ofGraph job.graph).list)
    : (job.function sig).Akin (.notices job.streak) (job.silent.function sig) := by
  have hapart := Signatures.apart_ofGraph job.graph sig h
  have hbody : Stmt.AllAkin (.notices job.streak) job.streak (job.function sig).body
      (job.silent.function sig).body := by
    have hsilent := job.silent.compileFunction_eq sig
    rw [functionOutset?_silent] at hsilent
    show Stmt.AllAkin _ _ (treesOf _) (treesOf (job.silent.compileFunction (.ofGraph job.silent.graph) sig).1)
    rw [hsilent, compileFunction_eq]
    cases houtset : job.functionOutset? sig with
    | none => exact .nil _
    | some outset =>
      exact akin_compiled hinstrument hnames (mem_append_right _ (mem_filterMap.mpr ⟨sig, h, houtset⟩))
  exact ⟨rfl, fun param hparam hmem => hnames param hmem (hapart.takesParams param hparam), hbody⟩

theorem akin_functions {rest rest' : List Stmt} (hrest : Stmt.AllAkin (.notices job.streak) job.streak rest rest')
    {signatures : List Signature} (h : signatures ⊆ (Signatures.ofGraph job.graph).list)
    : Stmt.AllAkin (.notices job.streak) job.streak
        (signatures.map (fun s => Stmt.function s.name (job.function s).params (job.function s).body) ++ rest)
        (signatures.map (fun s => Stmt.function s.name (job.silent.function s).params (job.silent.function s).body)
          ++ rest') := by
  induction signatures with
  | nil => exact hrest
  | cons sig signatures ih =>
    rw [cons_subset] at h
    have hapart := Signatures.apart_ofGraph job.graph sig h.1
    obtain ⟨-, hbinds, hbody⟩ := akin_function hinstrument hnames h.1
    exact .cons (.function (fun hname => hnames _ hname hapart.takes) hbinds hbody) (ih h.2)

theorem akin_program {main : List Item × List Diagnostic} (hmain : job.compileMain? (.ofGraph job.graph) = some main)
    : Stmt.AllAkin (.notices job.streak) job.streak job.program.body job.silent.program.body := by
  have hsilent := job.compileMain?_silent
  rw [hmain, Option.map_some] at hsilent
  have hrest : Stmt.AllAkin (.notices job.streak) job.streak (treesOf main.1) (treesOf (silenceAll main.1)) := by
    rw [compileMain?_eq] at hmain
    obtain ⟨outset, houtset, rfl⟩ := Option.map_eq_some_iff.mp hmain
    have hmem : outset ∈ job.outsets := mem_append_left _ (Option.mem_toList.mpr houtset)
    simpa only [outset.compiled_silent] using akin_compiled hinstrument hnames hmem
  have hbody : job.silent.program.body
      = job.silent.functions.map (fun function => .function function.1 function.2.params function.2.body)
        ++ treesOf (silenceAll main.1) := body_program hsilent
  have hgraph : job.silent.graph = job.graph := rfl
  rw [body_program hmain, hbody, functions, functions, hgraph, map_map, map_map]
  exact akin_functions hinstrument hnames hrest (List.Subset.refl _)

theorem quiets_dialog [Generator] (hreadable : ∀ outset ∈ job.outsets, outset.Readable) {main : List Item × List Diagnostic}
    (hmain : job.compileMain? (.ofGraph job.graph) = some main) {p q : Prop} (hpq : p ∨ q) {bound bound' : Nat}
    (hpaced : Exec.PacedAll (.notices job.streak) p q job.streak bound bound') (options : Run.Options)
    : (Run.dialog bound job.compile.code options).Quiets p q (· = .error .stackOverflow) Eq
        (Run.dialog bound' job.silent.compile.code options) := by
  have hsilent := job.compileMain?_silent
  rw [hmain, Option.map_some] at hsilent
  have hrun := (Exec.respects_shadows job.streak p q).run hpq hpaced (akin_program hinstrument hnames hmain)
  have hcode := dialog_code (readable_silent hreadable) bound' options
  rw [dialog_code hreadable, hcode]
  refine (hrun _ _ (.start _ options.seed options.maxCalls)).bind ?_ ?_
  · rintro ⟨verdict, m⟩ hoverflows d'
    refine .excused ?_ _
    exact hoverflows
  · rintro ⟨verdict, m⟩ ⟨verdict', m'⟩ ⟨rfl, -⟩
    exact .done rfl

omit hinstrument hnames in
/-- Unless the names that notices call are taken, a program with notices logs, asks and ends like the one
without them, or else it ends because it runs out of room. -/
theorem speaks_instrumented_iff [Generator] (job : Job) (options : Run.Options) (answers : List String)
    : let full : Job := { job with options := ⟨true⟩ }
      let plain : Job := { job with options := ⟨false⟩ }
      let noticed := fun bound => Run.dialog bound full.compile.code options
      let silent := fun bound => Run.dialog bound plain.compile.code options
      (∀ outset ∈ full.outsets, outset.Readable) → (∀ name ∈ noticeNames, name ∉ (Signatures.ofGraph job.graph).taken)
        → (∀ spoken, ¬ Dialog.Concludes noticed ⟨answers, none⟩ spoken (.error .stackOverflow))
        → (∀ spoken, Dialog.Speaks noticed ⟨answers, none⟩ spoken ↔ Dialog.Speaks silent ⟨answers, none⟩ spoken)
          ∧ ∀ spoken verdict, Dialog.Concludes noticed ⟨answers, none⟩ spoken verdict
            ↔ Dialog.Concludes silent ⟨answers, none⟩ spoken verdict := by
  intro full plain noticed silent hreadable hnames hroom
  have hfree : ∀ name ∈ noticeNames, name ∉ (Signatures.ofGraph full.graph).taken := hnames
  have hcovers : Dialog.Covers noticed silent ⟨answers, none⟩ ∧ Dialog.Covers silent noticed ⟨answers, none⟩ := by
    cases hmain : full.compileMain? (.ofGraph full.graph) with
    | none =>
      -- Without a start there is nothing to give notice of.
      have hcode : full.compile.code = plain.compile.code := by
        have hsilent := full.compileMain?_silent
        rw [hmain] at hsilent
        exact (code_of_compileMain?_eq_none hmain).trans (code_of_compileMain?_eq_none hsilent).symm
      have heq : noticed = silent := by
        funext bound
        exact congrArg (Run.dialog bound · options) hcode
      rw [heq]
      exact ⟨.refl _ _, .refl _ _⟩
    | some main =>
      have hforth (bound : Nat) : ∃ bound', (noticed bound).Quiets True False (· = .error .stackOverflow) Eq
          (silent bound') :=
        ⟨bound, quiets_dialog rfl hfree hreadable hmain (.inl trivial)
          ⟨fun h => absurd trivial h, fun _ => Nat.le_refl _⟩ options⟩
      have hback (bound' : Nat) : ∃ bound, (noticed bound).Quiets False True (· = .error .stackOverflow) Eq
          (silent bound') :=
        ⟨_, quiets_dialog rfl hfree hreadable hmain (.inr trivial)
          ⟨fun _ => Nat.le_refl _, fun h => absurd trivial h⟩ options⟩
      refine Dialog.covers_of_quiets hforth hback ?_
      rintro spoken _ hconcludes rfl
      exact hroom spoken hconcludes
  exact ⟨fun spoken => ⟨hcovers.1.speaks, hcovers.2.speaks⟩,
    fun spoken verdict => ⟨hcovers.1.concludes, hcovers.2.concludes⟩⟩

end Job

theorem matches_dialog [Generator] {bound bound' : Nat} (h : bound ≤ bound') (source : String) (options : Run.Options)
    : (Run.dialog bound source options).Matches True False Eq (Run.dialog bound' source options) := by
  refine (Exec.relates_extends.respects.runSource h source _).bind ?_
  rintro result _ rfl
  exact .done rfl

namespace Job

open List

def shownTwice : Graph where
  nodes :=
    [⟨"start", .start, none, {}⟩, ⟨"ask", .input, none, { variableName := some "n" }⟩,
     ⟨"loop", .forLoop, none, { inlineValues := .ofList [("to", "1")] }⟩,
     ⟨"show", .output, none, { inlineValues := .ofList [("value", "\"here\"")] }⟩,
     ⟨"call", .callFunction, none, { functionId := some "f" }⟩]
  edges :=
    [.control "start" "exec-out" "ask", .control "ask" "exec-out" "loop", .control "loop" "body" "show",
     .control "show" "exec-out" "call"]
  functions := .ofList [("f",
    { id := "f"
      name := "f"
      nodes :=
        [⟨"entry", .functionEntry, none, {}⟩, ⟨"echo", .output, none, { inlineValues := .ofList [("value", "\"there\"")] }⟩]
      edges := [.control "entry" "exec-out" "echo"] })]

theorem speaks_instrumented_iff_shownTwice
    : let full : Job := ⟨shownTwice, ⟨true⟩, {}⟩
      let plain : Job := ⟨shownTwice, ⟨false⟩, {}⟩
      let noticed := fun bound => Run.dialog bound full.compile.code ⟨.manual, none, 64⟩
      let silent := fun bound => Run.dialog bound plain.compile.code ⟨.manual, none, 64⟩
      (∀ outset ∈ full.outsets, outset.Readable) ∧ (∀ name ∈ noticeNames, name ∉ (Signatures.ofGraph shownTwice).taken)
        ∧ (∀ spoken, ¬ Dialog.Concludes noticed ⟨["2"], none⟩ spoken (.error .stackOverflow))
        ∧ Dialog.Concludes silent ⟨["2"], none⟩ [.prompt "", .log "here", .log "there"] (.ok ()) := by
  intro full plain noticed silent
  have hreadable : ∀ outset ∈ full.outsets, outset.Readable := readable_of_hasTokens (by decide +kernel)
  have hnames : ∀ name ∈ noticeNames, name ∉ (Signatures.ofGraph shownTwice).taken := by decide +kernel
  have hmain : (full.compileMain? (.ofGraph full.graph)).isSome := by decide +kernel
  obtain ⟨main, hmain⟩ := Option.isSome_iff_exists.mp hmain
  have hnoticed : noticed 60 = (Exec.run 60 full.program (.start none 64)).bind fun result => .done result.1 :=
    dialog_code hreadable 60 ⟨.manual, none, 64⟩
  have hends : Dialog.Concludes noticed ⟨["2"], none⟩ [.prompt "", .log "here", .log "there"] (.ok ()) := by
    refine ⟨60, ?_⟩
    rw [hnoticed]
    exact ⟨Request.eq_of_isEqv (by decide +kernel), Dialog.eq_of_isSuccess (by decide +kernel)⟩
  have hroom : ∀ spoken, ¬ Dialog.Concludes noticed ⟨["2"], none⟩ spoken (.error .stackOverflow) := by
    rintro spoken ⟨bound, -, hresult⟩
    obtain ⟨bound', -, hresult'⟩ := hends
    cases Dialog.result_unique (fun _ _ h => matches_dialog h _ _) hresult hresult'
  exact ⟨hreadable, hnames, hroom,
    ((speaks_instrumented_iff full ⟨.manual, none, 64⟩ ["2"] hreadable hnames hroom).2 _ _).mp hends⟩

def takenName : Graph where
  nodes :=
    [⟨"start", .start, none, {}⟩, ⟨"set", .set, none, { variableName := some "__onNode" }⟩,
     ⟨"show", .output, none, { inlineValues := .ofList [("value", "\"here\"")] }⟩]
  edges := [.control "start" "exec-out" "set", .control "set" "exec-out" "show"]

theorem takenName_notAFunction
    : let noticed := fun bound => Run.dialog bound (Job.mk takenName ⟨true⟩ {}).compile.code ⟨.manual, none, 64⟩
      let silent := fun bound => Run.dialog bound (Job.mk takenName ⟨false⟩ {}).compile.code ⟨.manual, none, 64⟩
      Dialog.Concludes noticed ⟨[], none⟩ [] (.error (.notAFunction "__onNode"))
        ∧ Dialog.Concludes silent ⟨[], none⟩ [.log "here"] (.ok ()) := by
  intro noticed silent
  exact ⟨⟨60, Request.eq_of_isEqv (by decide +kernel), Dialog.eq_of_isFailure (by decide +kernel)⟩,
    ⟨60, Request.eq_of_isEqv (by decide +kernel), Dialog.eq_of_isSuccess (by decide +kernel)⟩⟩

end Job

end NodeScript.Compile
