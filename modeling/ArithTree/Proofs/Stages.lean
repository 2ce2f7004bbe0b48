import ArithTree.Command.Run
import ArithTree.Libraries.Standard
import ArithTree.Proofs.Layering
import ArithTree.Proofs.Moves
import ArithTree.Proofs.Parsing

/-!
# The first failing stage decides how a run ends

A run about an expression goes through stages (`Stage`). What makes a stage fail is said without the
run (`Fails`), and several may fail at once. The run ends with the exit code of the first of them,
and before anything is printed (`stages_decide`), but for a panic of the reader of the environment.
-/

namespace ArithTree

/-! ## Expressions -/

theorem Text.withoutBlanks_trim (text : String) :
    withoutBlanks (trim text).toList = withoutBlanks text.toList := by
  have hdrop (cs : List Char) : withoutBlanks (cs.dropWhile isBlank) = withoutBlanks cs := by
    induction cs with
    | nil => rfl
    | cons c cs ih =>
      by_cases hc : isBlank c = true
      · rw [List.dropWhile_cons_of_pos hc, ih, withoutBlanks, withoutBlanks,
          List.filter_cons_of_neg (by simp [hc])]
      · rw [List.dropWhile_cons_of_neg hc]
  have hreverse (cs : List Char) : withoutBlanks cs.reverse = (withoutBlanks cs).reverse :=
    List.filter_reverse
  rw [trim, String.toList_ofList, trimBlanks, hreverse, hdrop, hreverse, hdrop,
    List.reverse_reverse]

/-- Without its blanks, the text is no longer than the limit and derives from the grammar. -/
def IsExpression (limit : Nat) (text : String) : Prop :=
  (limit = 0 ∨ (Text.withoutBlanks text.toList).length ≤ limit) ∧
    ∃ d, Parser.Derives (.chain .addition) (Text.withoutBlanks text.toList) d

theorem Settings.admits_iff (s : Settings) (length : Nat) :
    s.parserOptions.Admits length ↔ s.maxInputLength = 0 ∨ length ≤ s.maxInputLength := by
  unfold parserOptions ParserOptions.Admits
  split
  · next h => simp [h]
  · next h => simp [h]

/-- A text is taken exactly when it is an expression. -/
theorem Store.ofText_cases (s : Settings) (text : String) :
    IsExpression s.maxInputLength text ∧
        (∃ tree d, Parser.parse s.parserOptions (Text.trim text) = .ok tree ∧
          Parser.IsTree tree d) ∨
      ¬ IsExpression s.maxInputLength text ∧
        ∃ e, Parser.parse s.parserOptions (Text.trim text) = .error e := by
  rcases Parser.parse_cases s.parserOptions (Text.trim text) with
    ⟨max, hmax, hlong, hparse⟩ | ⟨hadmits, hparse⟩
  · refine Or.inr ⟨fun h => ?_, _, hparse⟩
    rw [Text.withoutBlanks_trim] at hlong
    exact absurd ((s.admits_iff _).mpr h.1 max hmax) (Nat.not_le.mpr hlong)
  · rw [Text.withoutBlanks_trim] at hadmits hparse
    rcases Parser.parseInput_spec s.parserOptions (Text.trim text)
      (Text.withoutBlanks text.toList) with
      ⟨tree, d, hok, hd, htree⟩ | ⟨herror, hnone⟩
    · exact Or.inl ⟨⟨(s.admits_iff _).mp hadmits, d, hd⟩, tree, d.merged, hparse.trans hok, htree⟩
    · exact Or.inr ⟨fun ⟨_, d, hd⟩ => hnone d hd, _, hparse.trans herror⟩

namespace Command

/-! ## What an invocation asks for -/

/-- The written path of the node that is to be moved. -/
def Action.node? : Action → Option String
  | .placements _ node _ => some node
  | .move _ node _ _ => some node
  | _ => none

def Action.slot? : Action → Option Nat
  | .move _ _ slot _ => some slot
  | _ => none

namespace Invocation

def source? (i : Invocation) : Option Source := i.action.bind Action.source?

def node? (i : Invocation) : Option String := i.action.bind Action.node?

def slot? (i : Invocation) : Option Nat := i.action.bind Action.slot?

/-- The run goes through an expression, or through nothing for want of a command. -/
def IsStaged (i : Invocation) : Prop := i.action = none ∨ ∃ source, i.source? = some source

end Invocation

/-- The text of the expression, when there is one. A file has to be a regular one. -/
def Source.content? (m : Surroundings) : Source → Option String
  | ⟨some text, _⟩ => some text
  | ⟨none, some path⟩ =>
    match m.file path with
    | .present true content => content.toOption
    | _ => none
  | ⟨none, none⟩ => m.input.toOption

theorem Source.readExpression_cases (m : Surroundings) (source : Source) :
    (∃ text, source.content? m = some text ∧ m.readExpression source.text source.file = .ok text) ∨
      source.content? m = none ∧
        ∃ context reason,
          m.readExpression source.text source.file = .error (.io context reason) := by
  match source with
  | ⟨some text, _⟩ => exact Or.inl ⟨text, rfl, rfl⟩
  | ⟨none, some path⟩ =>
    simp only [Source.content?, Surroundings.readExpression]
    match m.file path with
    | .missing reason => exact Or.inr ⟨rfl, _, _, rfl⟩
    | .present false content => exact Or.inr ⟨rfl, _, _, rfl⟩
    | .present true (.ok content) => exact Or.inl ⟨content, rfl, rfl⟩
    | .present true (.error reason) => exact Or.inr ⟨rfl, _, _, rfl⟩
  | ⟨none, none⟩ =>
    simp only [Source.content?, Surroundings.readExpression]
    cases m.input with
    | ok content => exact Or.inl ⟨content, rfl, rfl⟩
    | error reason => exact Or.inr ⟨rfl, _, _, rfl⟩

/-- The settings that the options of the invocation leave. -/
def Invocation.settings (i : Invocation) (s : Settings) : Settings :=
  if i.noMemo then { s with memoize := false } else s

theorem Invocation.maxInputLength_settings (i : Invocation) (s : Settings) :
    (i.settings s).maxInputLength = s.maxInputLength := by
  unfold Invocation.settings
  split <;> rfl

/-- The tree of the expression. -/
def Invocation.Loads (lib : Libraries) (m : Surroundings) (i : Invocation) (tree : Store) : Prop :=
  ∃ s source text, Settings.load lib m i.configDir = .ok s ∧ i.source? = some source ∧
    source.content? m = some text ∧
      Parser.parse (i.settings s).parserOptions (Text.trim text) = .ok tree

/-- The written path leads to the node. -/
def LeadsTo (tree : Store) (written : String) (node : NodeId) : Prop :=
  ∃ path, NodePath.parse? written = some path ∧ tree.nodeAt? path = some node

/-! ## Stages -/

/-- The stages in their order. -/
inductive Stage where
  | settings
  | command
  | reading
  | parsing
  | path
  | root
  | slot
  deriving DecidableEq, Repr

def Stage.rank : Stage → Nat
  | .settings => 0
  | .command => 1
  | .reading => 2
  | .parsing => 3
  | .path => 4
  | .root => 5
  | .slot => 6

def Stage.exitCode : Stage → Nat
  | .settings => 78
  | .command => 64
  | .reading => 74
  | .parsing => 65
  | .path => 64
  | .root => 64
  | .slot => 64

/-- What makes a stage fail, whatever the stages before it do. A stage that needs a tree cannot fail
without one. -/
inductive Fails (lib : Libraries) (m : Surroundings) (i : Invocation) : Stage → Prop
  | settings {e : ConfigError} (hload : Settings.load lib m i.configDir = .error e) :
      Fails lib m i .settings
  | command (hnone : i.action = none) : Fails lib m i .command
  | reading {source : Source} (hsource : i.source? = some source)
      (hnone : source.content? m = none) :
      Fails lib m i .reading
  | parsing {s : Settings} {source : Source} {text : String}
      (hload : Settings.load lib m i.configDir = .ok s) (hsource : i.source? = some source)
      (htext : source.content? m = some text) (hwrong : ¬ IsExpression s.maxInputLength text) :
      Fails lib m i .parsing
  | path {tree : Store} {written : String} (htree : i.Loads lib m tree)
      (hnode : i.node? = some written)
      (hnowhere : ∀ node, ¬ LeadsTo tree written node) : Fails lib m i .path
  | root {tree : Store} {written : String} {node : NodeId} (htree : i.Loads lib m tree)
      (hnode : i.node? = some written) (hleads : LeadsTo tree written node)
      (hroot : tree.root = some node) : Fails lib m i .root
  | slot {tree : Store} {written : String} {node parent : NodeId} {slot : Nat}
      (htree : i.Loads lib m tree) (hnode : i.node? = some written) (hslot : i.slot? = some slot)
      (hleads : LeadsTo tree written node) (hparent : tree.parent? node = some parent)
      (hbehind : (tree.children parent).length ≤ slot) : Fails lib m i .slot

/-- The stage fails, and none before it does. -/
def FailsFirst (lib : Libraries) (m : Surroundings) (i : Invocation) (stage : Stage) : Prop :=
  Fails lib m i stage ∧ ∀ earlier : Stage, earlier.rank < stage.rank → ¬ Fails lib m i earlier

theorem Stage.exitCode_ne_zero (stage : Stage) : stage.exitCode ≠ 0 := by
  cases stage <;> decide

section

variable {lib : Libraries} {m : Surroundings} {i : Invocation}

theorem Stage.rank_injective {stage stage' : Stage} (h : stage.rank = stage'.rank) :
    stage = stage' := by
  cases stage <;> cases stage' <;> first | rfl | cases h

theorem FailsFirst.eq {stage stage' : Stage} (h : FailsFirst lib m i stage)
    (h' : FailsFirst lib m i stage') : stage = stage' := by
  rcases Nat.lt_trichotomy stage.rank stage'.rank with hlt | heq | hgt
  · exact absurd h.1 (h'.2 stage hlt)
  · exact Stage.rank_injective heq
  · exact absurd h'.1 (h.2 stage' hgt)

theorem Invocation.Loads.unique {tree tree' : Store} (h : i.Loads lib m tree)
    (h' : i.Loads lib m tree') :
    tree = tree' := by
  obtain ⟨s, source, text, hload, hsource, htext, hparse⟩ := h
  obtain ⟨s', source', text', hload', hsource', htext', hparse'⟩ := h'
  obtain rfl := Except.ok.inj (hload.symm.trans hload')
  obtain rfl := Option.some.inj (hsource.symm.trans hsource')
  obtain rfl := Option.some.inj (htext.symm.trans htext')
  exact Except.ok.inj (hparse.symm.trans hparse')

theorem LeadsTo.unique {tree : Store} {written : String} {node node' : NodeId}
    (h : LeadsTo tree written node) (h' : LeadsTo tree written node') : node = node' := by
  obtain ⟨path, hread, hnode⟩ := h
  obtain ⟨path', hread', hnode'⟩ := h'
  obtain rfl := Option.some.inj (hread.symm.trans hread')
  exact Option.some.inj (hnode.symm.trans hnode')

/-! ## Stages that are passed -/

/-- So many stages do not fail. -/
def Passed (lib : Libraries) (m : Surroundings) (i : Invocation) (n : Nat) : Prop :=
  ∀ stage : Stage, stage.rank < n → ¬ Fails lib m i stage

theorem Passed.next {n : Nat} (h : Passed lib m i n) (stage : Stage) (hrank : stage.rank = n)
    (hpass : ¬ Fails lib m i stage) : Passed lib m i (n + 1) := by
  intro earlier hlt
  rcases Nat.lt_succ_iff_lt_or_eq.mp hlt with hlt | heq
  · exact h earlier hlt
  · rwa [Stage.rank_injective (heq.trans hrank.symm)]

theorem Passed.not_fails (h : Passed lib m i 7) (stage : Stage) : ¬ Fails lib m i stage :=
  h stage (by cases stage <;> decide)

theorem not_fails_settings {s : Settings} (hload : Settings.load lib m i.configDir = .ok s) :
    ¬ Fails lib m i .settings
  | .settings herror => by rw [hload] at herror; cases herror

theorem not_fails_command {action : Action} (haction : i.action = some action) :
    ¬ Fails lib m i .command
  | .command hnone => by rw [haction] at hnone; cases hnone

section

variable {source : Source} {text : String} (hsource : i.source? = some source)
  (htext : source.content? m = some text)

include hsource htext

theorem not_fails_reading : ¬ Fails lib m i .reading
  | .reading hsource' hnone => by
    obtain rfl := Option.some.inj (hsource.symm.trans hsource')
    rw [htext] at hnone
    cases hnone

theorem not_fails_parsing {s : Settings} (hload : Settings.load lib m i.configDir = .ok s)
    (hexpr : IsExpression s.maxInputLength text) : ¬ Fails lib m i .parsing
  | .parsing hload' hsource' htext' hwrong => by
    obtain rfl := Except.ok.inj (hload.symm.trans hload')
    obtain rfl := Option.some.inj (hsource.symm.trans hsource')
    obtain rfl := Option.some.inj (htext.symm.trans htext')
    exact hwrong hexpr

end

section

variable {tree : Store} (htree : i.Loads lib m tree)

include htree

theorem not_fails_path (hleads : ∀ written, i.node? = some written →
    ∃ node, LeadsTo tree written node) : ¬ Fails lib m i .path
  | .path htree' hnode hnowhere => by
    obtain rfl := htree.unique htree'
    obtain ⟨node, hleads⟩ := hleads _ hnode
    exact hnowhere node hleads

theorem not_fails_root (hmovable : ∀ written node, i.node? = some written →
    LeadsTo tree written node → tree.root ≠ some node) : ¬ Fails lib m i .root
  | .root htree' hnode hleads hroot => by
    obtain rfl := htree.unique htree'
    exact hmovable _ _ hnode hleads hroot

theorem not_fails_slot (hinside : ∀ written node parent slot, i.node? = some written →
    i.slot? = some slot → LeadsTo tree written node → tree.parent? node = some parent →
      slot < (tree.children parent).length) : ¬ Fails lib m i .slot
  | .slot htree' hnode hslot hleads hparent hbehind => by
    obtain rfl := htree.unique htree'
    exact absurd (hinside _ _ _ _ hnode hslot hleads hparent) (Nat.not_lt.mpr hbehind)

end

end

/-! ## Moving -/

section

variable {tree : Store} {root : NodeId} {written : String}

/-- A written path leads to a node, or it is refused. -/
theorem resolve_cases (tree : Store) (written : String) :
    (∃ node, LeadsTo tree written node ∧ tree.resolve written = .ok node) ∨
      (∀ node, ¬ LeadsTo tree written node) ∧
        ∃ given, tree.resolve written = .error (.invalidPath given) := by
  unfold Store.resolve
  cases hread : NodePath.parse? written with
  | none =>
    refine Or.inr ⟨fun node ⟨path, hpath, _⟩ => ?_, _, rfl⟩
    rw [hread] at hpath
    cases hpath
  | some path =>
    cases hnode : tree.nodeAt? path with
    | none =>
      refine Or.inr ⟨fun node ⟨path', hpath, hnode'⟩ => ?_, written, by simp only [hnode]⟩
      rw [← Option.some.inj (hread.symm.trans hpath), hnode] at hnode'
      cases hnode'
    | some node => exact Or.inl ⟨node, ⟨path, hread, hnode⟩, by simp only [hnode]⟩

/-- The node at a written path can be moved, unless there is none or it is the root. -/
theorem resolveMovable_cases (h : tree.WellFormed root) (written : String) :
    (∀ node, ¬ LeadsTo tree written node) ∧
        (∃ given, tree.resolveMovable written = .error (.invalidPath given)) ∨
      (∃ node, LeadsTo tree written node ∧ tree.root = some node ∧
        tree.resolveMovable written = .error (.drag .rootNotMovable)) ∨
      ∃ node parent, LeadsTo tree written node ∧ tree.root ≠ some node ∧
        tree.parent? node = some parent ∧ tree.resolveMovable written = .ok node ∧
          ∃ all, tree.candidatesAt written = .ok all := by
  rcases resolve_cases tree written with ⟨node, hleads, hresolve⟩ | ⟨hnowhere, given, hresolve⟩
  · by_cases hroot : tree.root = some node
    · exact Or.inr (Or.inl ⟨node, hleads, hroot, by
        simp only [Store.resolveMovable, hresolve, if_pos hroot]⟩)
    · have hmovable : tree.resolveMovable written = .ok node := by
        simp only [Store.resolveMovable, hresolve, if_neg hroot]
      obtain ⟨path, hread, hnode⟩ := hleads
      have hpath := h.toRooted.pathOf?_eq_some_iff.mpr hnode
      obtain ⟨up, position, rfl⟩ := h.toRooted.exists_snoc hpath hroot
      obtain ⟨parent, all, hparent, hall, -⟩ := h.candidatesAt_eq hmovable hpath
      exact Or.inr (Or.inr ⟨node, parent, ⟨_, hread, hnode⟩, hroot, hparent, hmovable, all, hall⟩)
  · exact Or.inl ⟨hnowhere, given, by simp only [Store.resolveMovable, hresolve]⟩

theorem candidatesAt_of_refused {e : Failure} (h : tree.resolveMovable written = .error e) :
    tree.candidatesAt written = .error e := by
  simp only [Store.candidatesAt, h]

theorem relocate_of_refused {e : Failure} {slot : Nat}
    (h : tree.resolveMovable written = .error e) :
    tree.relocate written slot = .error e := by
  simp only [Store.relocate, h]

/-- A node that can be moved goes to the slots of its sibling list and to no other. -/
theorem relocate_cases (h : tree.WellFormed root) {node parent : NodeId}
    (hmovable : tree.resolveMovable written = .ok node) (hparent : tree.parent? node = some parent)
    (slot : Nat) :
    (tree.children parent).length ≤ slot ∧
        (∃ siblings, tree.relocate written slot = .error (.slotOutOfRange slot siblings)) ∨
      slot < (tree.children parent).length ∧ ∃ p, tree.relocate written slot = .ok p := by
  rcases Nat.lt_or_ge slot (tree.children parent).length with hlt | hge
  · obtain ⟨p, hp, -⟩ := Store.place_of_lt (r := ⟨node, slot⟩) h hparent hlt
    exact Or.inr ⟨hlt, p, Store.relocate_of_place hmovable h.marked hp⟩
  · exact Or.inl ⟨hge, _, h.relocate_of_le hmovable hparent hge⟩

/-! ## Actions -/

variable {lib : Libraries} {m : Surroundings} {coloured : Bool} {s : Settings}
  {directory : Option String}
  {action : Action} {source : Source}

/-- Without a tree no action goes on. -/
theorem Action.run_of_error {e : Failure} (hsource : action.source? = some source)
    (herror : loadTree m s source = .error e) :
    (action.run lib m coloured s directory).FailsSilently e := by
  cases action <;> cases hsource <;>
    simp only [Action.run, herror, Printing.need_error_bind, Printing.failsSilently_throw]

/-- What becomes of an action once there is a tree: its path, its node or its slot is refused, or it
prints. -/
theorem Action.run_cases (lib : Libraries) (coloured : Bool) (directory : Option String)
    (h : tree.WellFormed root) (hsource : action.source? = some source)
    (htree : loadTree m s source = .ok tree) :
    (∃ written given, action.node? = some written ∧ (∀ node, ¬ LeadsTo tree written node) ∧
      (action.run lib m coloured s directory).FailsSilently (.invalidPath given)) ∨
    (∃ written node, action.node? = some written ∧ LeadsTo tree written node ∧
      tree.root = some node ∧
      (action.run lib m coloured s directory).FailsSilently (.drag .rootNotMovable)) ∨
    (∃ written node parent slot siblings, action.node? = some written ∧ action.slot? = some slot ∧
      LeadsTo tree written node ∧ tree.root ≠ some node ∧ tree.parent? node = some parent ∧
      (tree.children parent).length ≤ slot ∧
      (action.run lib m coloured s directory).FailsSilently (.slotOutOfRange slot siblings)) ∨
    ((∀ written, action.node? = some written → ∃ node, LeadsTo tree written node ∧
      tree.root ≠ some node ∧ ∀ slot, action.slot? = some slot →
        ∃ parent, tree.parent? node = some parent ∧ slot < (tree.children parent).length) ∧
      (action.run lib m coloured s directory).Completes) := by
  cases action with
  | parse source' format =>
    cases hsource
    refine Or.inr (Or.inr (Or.inr ⟨fun _ h => (by cases h), ?_⟩))
    simp only [Action.run, htree]
    exact ⟨_, rfl⟩
  | check source' =>
    cases hsource
    refine Or.inr (Or.inr (Or.inr ⟨fun _ h => (by cases h), ?_⟩))
    simp only [Action.run, htree]
    exact ⟨_, rfl⟩
  | placements source' written format =>
    cases hsource
    rcases resolveMovable_cases h written with ⟨hnowhere, given, hmovable⟩ |
      ⟨node, hleads, hroot, hmovable⟩ | ⟨node, parent, hleads, hroot, hparent, hmovable, all, hall⟩
    · refine Or.inl ⟨written, given, rfl, hnowhere, ?_⟩
      simp only [Action.run, htree, Printing.need_ok_bind, candidatesAt_of_refused hmovable,
        Printing.need_error_bind, Printing.failsSilently_throw]
    · refine Or.inr (Or.inl ⟨written, node, rfl, hleads, hroot, ?_⟩)
      simp only [Action.run, htree, Printing.need_ok_bind, candidatesAt_of_refused hmovable,
        Printing.need_error_bind, Printing.failsSilently_throw]
    · refine Or.inr (Or.inr (Or.inr ⟨fun written' h => ?_, ?_⟩))
      · obtain rfl := Option.some.inj h
        exact ⟨node, hleads, hroot, fun _ h => (by cases h)⟩
      · simp only [Action.run, htree, Printing.need_ok_bind, hall]
        exact Printing.after_forM (fun _ _ => ⟨_, rfl⟩) _
  | move source' written slot format =>
    cases hsource
    rcases resolveMovable_cases h written with ⟨hnowhere, given, hmovable⟩ |
      ⟨node, hleads, hroot, hmovable⟩ | ⟨node, parent, hleads, hroot, hparent, hmovable, -⟩
    · refine Or.inl ⟨written, given, rfl, hnowhere, ?_⟩
      simp only [Action.run, htree, Printing.need_ok_bind, relocate_of_refused hmovable,
        Printing.need_error_bind, Printing.failsSilently_throw]
    · refine Or.inr (Or.inl ⟨written, node, rfl, hleads, hroot, ?_⟩)
      simp only [Action.run, htree, Printing.need_ok_bind, relocate_of_refused hmovable,
        Printing.need_error_bind, Printing.failsSilently_throw]
    · rcases relocate_cases h hmovable hparent slot with ⟨hge, siblings, hslot⟩ | ⟨hlt, p, hslot⟩
      · refine Or.inr (Or.inr (Or.inl ⟨written, node, parent, slot, siblings, rfl, rfl, hleads,
          hroot, hparent, hge, ?_⟩))
        simp only [Action.run, htree, Printing.need_ok_bind, hslot, Printing.need_error_bind,
          Printing.failsSilently_throw]
      · refine Or.inr (Or.inr (Or.inr ⟨fun written' h => ?_, ?_⟩))
        · obtain rfl := Option.some.inj h
          refine ⟨node, hleads, hroot, fun slot' h => ⟨parent, hparent, ?_⟩⟩
          rwa [← Option.some.inj h]
        · simp only [Action.run, htree, Printing.need_ok_bind, hslot]
          exact ⟨_, rfl⟩
  | showSettings => cases hsource
  | showPaths => cases hsource
  | completion shell => cases hsource

/-! ## Runs -/

/-- Failing to load settings takes the code of its stage, unless it is a panic. -/
theorem exitCode_config (e : ConfigError) :
    e.IsReported ∧ (Failure.config e).exitCode = 78 ∨
      e = .panicked ∧ (Failure.config e).exitCode = 101 := by
  cases e with
  | panicked => exact Or.inr ⟨rfl, rfl⟩
  | _ => exact Or.inl ⟨ConfigError.noConfusion, rfl⟩

/-- With a tree, an action fails at the first of the three stages left that fails. -/
theorem run_cases_of_tree {i : Invocation} (haction : i.action = some action)
    (hsource : action.source? = some source) (h : tree.WellFormed root)
    (hloads : i.Loads lib m tree)
    (htree : loadTree m s source = .ok tree) (hparsing : Passed lib m i 4) :
    (∃ stage e, FailsFirst lib m i stage ∧ (action.run lib m coloured s directory).FailsSilently e ∧
      e.exitCode = stage.exitCode) ∨
    (∀ stage, ¬ Fails lib m i stage) ∧ (action.run lib m coloured s directory).Completes := by
  have hnode? : action.node? = i.node? := by rw [Invocation.node?, haction, Option.bind_some]
  have hslot? : action.slot? = i.slot? := by rw [Invocation.slot?, haction, Option.bind_some]
  have hcases := action.run_cases lib coloured directory h hsource htree
  rw [hnode?, hslot?] at hcases
  rcases hcases with
    ⟨written, given, hnode, hnowhere, hend⟩ | ⟨written, node, hnode, hleads, hroot, hend⟩ |
    ⟨written, node, parent, slot, siblings, hnode, hslot, hleads, hroot, hparent, hge, hend⟩ |
    ⟨hpasses, hend⟩
  · exact Or.inl ⟨.path, _, ⟨.path hloads hnode hnowhere, hparsing⟩, hend, rfl⟩
  · have hpath := hparsing.next .path rfl (not_fails_path hloads
      fun written' h => ⟨node, Option.some.inj (hnode.symm.trans h) ▸ hleads⟩)
    exact Or.inl ⟨.root, _, ⟨.root hloads hnode hleads hroot, hpath⟩, hend, rfl⟩
  · have hpath := hparsing.next .path rfl (not_fails_path hloads
      fun written' h => ⟨node, Option.some.inj (hnode.symm.trans h) ▸ hleads⟩)
    have hmoved := hpath.next .root rfl (not_fails_root hloads
      fun written' node' h hleads' => by
        obtain rfl := Option.some.inj (hnode.symm.trans h)
        rwa [← hleads.unique hleads'])
    exact Or.inl ⟨.slot, _, ⟨.slot hloads hnode hslot hleads hparent hge, hmoved⟩,
      hend, rfl⟩
  · have hpath := hparsing.next .path rfl (not_fails_path hloads
      fun written h => (hpasses written h).imp fun _ h => h.1)
    have hmoved := hpath.next .root rfl (not_fails_root hloads
      fun written node h hleads => by
        obtain ⟨node', hleads', hroot, -⟩ := hpasses written h
        rwa [hleads.unique hleads'])
    have hslots := hmoved.next .slot rfl (not_fails_slot hloads
      fun written node parent slot h hslot hleads hparent => by
        obtain ⟨node', hleads', -, hinside⟩ := hpasses written h
        obtain rfl := hleads.unique hleads'
        obtain ⟨parent', hparent', hlt⟩ := hinside slot hslot
        rwa [Option.some.inj (hparent.symm.trans hparent')])
    exact Or.inr ⟨hslots.not_fails, hend⟩

/-- **Stage lemma.** A run fails at its first failing stage before it prints, and completes when
there is none. -/
theorem Invocation.run_cases (lib : Libraries) (m : Surroundings) (i : Invocation) (coloured : Bool)
    (h : i.IsStaged) :
    (∃ stage e, FailsFirst lib m i stage ∧ (i.run lib m coloured).FailsSilently e ∧
      (e.exitCode = stage.exitCode ∧ Settings.load lib m i.configDir ≠ .error .panicked ∨
        e.exitCode = 101 ∧ Settings.load lib m i.configDir = .error .panicked)) ∨
      (∀ stage, ¬ Fails lib m i stage) ∧ (i.run lib m coloured).Completes := by
  have hstart : Passed lib m i 0 := fun _ h => absurd h (Nat.not_lt_zero _)
  cases hload : Settings.load lib m i.configDir with
  | error e =>
    refine Or.inl ⟨.settings, .config e, ⟨.settings hload, hstart⟩, ?_, ?_⟩
    · simp only [Invocation.run, hload, Except.mapError, Printing.need_error_bind,
        Printing.failsSilently_throw]
    · rcases exitCode_config e with ⟨he, hcode⟩ | ⟨rfl, hcode⟩
      · exact Or.inl ⟨hcode, fun heq => he (Except.error.inj heq)⟩
      · exact Or.inr ⟨hcode, rfl⟩
  | ok s =>
    have hloaded : Except.ok s ≠ .error ConfigError.panicked := fun h => by cases h
    have hsettings := hstart.next .settings rfl (not_fails_settings hload)
    cases haction : i.action with
    | none =>
      have hend : ∃ text, (i.run lib m coloured).FailsSilently (.usage text) := by
        simp only [Invocation.run, hload, haction, Except.mapError, Printing.need_ok_bind]
        exact ⟨_, Printing.failsSilently_throw _⟩
      obtain ⟨text, hend⟩ := hend
      exact Or.inl ⟨.command, _, ⟨.command haction, hsettings⟩, hend, Or.inl ⟨rfl, hloaded⟩⟩
    | some action =>
      obtain ⟨source, hasked⟩ := h.resolve_left (by rw [haction]; exact fun h => by cases h)
      have hsource : action.source? = some source := by
        rwa [Invocation.source?, haction, Option.bind_some] at hasked
      have hcommand := hsettings.next .command rfl (not_fails_command haction)
      have hrun : i.run lib m coloured =
          action.run lib m coloured (i.settings s) i.configDir := by
        simp only [Invocation.run, hload, haction, Invocation.settings, Except.mapError,
          Printing.need_ok_bind]
      rw [hrun]
      rcases source.readExpression_cases m with
        ⟨text, htext, hread⟩ | ⟨hnone, context, reason, hread⟩
      · have hreading := hcommand.next .reading rfl (not_fails_reading hasked htext)
        rcases Store.ofText_cases (i.settings s) text with
          ⟨hexpr, tree, d, hparse, ⟨root, hwf⟩, -, -⟩ | ⟨hwrong, e, hparse⟩
        · rw [i.maxInputLength_settings] at hexpr
          have htree : loadTree m (i.settings s) source = .ok tree := by
            simp only [loadTree, hread, Store.ofText, hparse]
          rcases run_cases_of_tree haction hsource hwf
            ⟨s, source, text, hload, hasked, htext, hparse⟩ htree
            (hreading.next .parsing rfl (not_fails_parsing hasked htext hload hexpr)) with
            ⟨stage, e, hfirst, hend, hcode⟩ | hpasses
          · exact Or.inl ⟨stage, e, hfirst, hend, Or.inl ⟨hcode, hloaded⟩⟩
          · exact Or.inr hpasses
        · rw [i.maxInputLength_settings] at hwrong
          have htree : loadTree m (i.settings s) source = .error (.parse e) := by
            simp only [loadTree, hread, Store.ofText, hparse]
          exact Or.inl ⟨.parsing, _, ⟨.parsing hload hasked htext hwrong, hreading⟩,
            Action.run_of_error hsource htree, Or.inl ⟨rfl, hloaded⟩⟩
      · have htree : loadTree m (i.settings s) source = .error (.io context reason) := by
          simp only [loadTree, hread]
        exact Or.inl ⟨.reading, _, ⟨.reading hasked hnone, hcommand⟩,
          Action.run_of_error hsource htree, Or.inl ⟨rfl, hloaded⟩⟩

theorem run_of_completes {args : List String} {i : Invocation} (hcall : lib.call args = .run i)
    (h : (i.run lib m (isColoured m.environment m.terminal)).Completes) :
    (run lib m args).exit = 0 := by
  obtain ⟨text, h⟩ := h
  simp only [run, hcall, h]

theorem run_of_failsSilently {args : List String} {i : Invocation} {e : Failure}
    (hcall : lib.call args = .run i)
    (h : (i.run lib m (isColoured m.environment m.terminal)).FailsSilently e) :
    (run lib m args).exit = e.exitCode ∧ (run lib m args).stdout = "" := by
  rw [Printing.FailsSilently] at h
  simp only [run, hcall, h, and_self]

/-- A check does nothing but parse. -/
theorem not_fails_check {i : Invocation} {text : String} (haction : i.action = some (.check source))
    (hload : Settings.load lib m i.configDir = .ok s) (htext : source.content? m = some text)
    (hexpr : IsExpression s.maxInputLength text) (stage : Stage) : ¬ Fails lib m i stage := by
  have hsource : i.source? = some source := by rw [Invocation.source?, haction]; rfl
  have hnode : i.node? = none := by rw [Invocation.node?, haction]; rfl
  intro hfails
  cases hfails with
  | settings herror => exact not_fails_settings hload (.settings herror)
  | command hnone => rw [haction] at hnone; cases hnone
  | reading hasked hnone =>
    exact not_fails_reading hsource htext (.reading hasked hnone : Fails lib m i .reading)
  | parsing hload' hasked htext' hwrong =>
    exact not_fails_parsing hsource htext hload hexpr (.parsing hload' hasked htext' hwrong)
  | path _ hwritten _ => rw [hnode] at hwritten; cases hwritten
  | root _ hwritten _ _ => rw [hnode] at hwritten; cases hwritten
  | slot _ hwritten _ _ _ _ => rw [hnode] at hwritten; cases hwritten

/-- **The first failing stage decides.** A run that goes through an expression ends with the exit
code of its first failing stage, and with zero exactly when no stage fails; where it does not end
with zero, it has printed nothing. Only a panic of the reader of the environment has an exit code of
its own, which takes variables that are no text or name positions in lists. Checking a text that can
be read, with settings that can be loaded, finds out whether it is an expression. -/
theorem stages_decide (lib : Libraries) (m : Surroundings) (args : List String) (i : Invocation)
    (hcall : lib.call args = .run i) (hstaged : i.IsStaged) :
    let loaded := Settings.load lib m i.configDir
    let outcome := run lib m args
    (∀ stage, FailsFirst lib m i stage → loaded ≠ .error .panicked →
      outcome.exit = stage.exitCode) ∧
    (loaded = .error .panicked → outcome.exit = 101) ∧
    (lib.reader.Lawful → m.environment.IsText → m.environment.NamesOnly →
      loaded ≠ .error .panicked) ∧
    (outcome.exit = 0 ↔ ∀ stage, ¬ Fails lib m i stage) ∧
    (outcome.exit ≠ 0 → outcome.stdout = "") ∧
    ∀ source s text, i.action = some (.check source) → loaded = .ok s →
      source.content? m = some text →
        (outcome.exit = 0 ↔ IsExpression s.maxInputLength text) := by
  intro loaded outcome
  have hzero : outcome.exit = 0 ↔ ∀ stage, ¬ Fails lib m i stage := by
    rcases i.run_cases lib m _ hstaged with ⟨stage, e, hfirst, hend, hcode⟩ | ⟨hpasses, hend⟩
    · have hne : outcome.exit ≠ 0 := by
        rw [(run_of_failsSilently hcall hend).1]
        rcases hcode with ⟨hcode, -⟩ | ⟨hcode, -⟩
        · exact hcode ▸ stage.exitCode_ne_zero
        · simp only [hcode, ne_eq, reduceCtorEq, not_false_eq_true]
      exact iff_of_false hne fun h => h stage hfirst.1
    · exact iff_of_true (run_of_completes hcall hend) hpasses
  refine ⟨fun stage hfirst hloaded => ?_, fun hpanicked => ?_, Settings.load_ne_panicked, hzero,
    fun hne => ?_, fun source s text haction hload htext => ⟨fun h => ?_, fun hexpr => ?_⟩⟩
  · rcases i.run_cases lib m _ hstaged with ⟨stage', e, hfirst', hend, hcode⟩ | ⟨hpasses, -⟩
    · rcases hcode with ⟨hcode, -⟩ | ⟨-, hpanicked⟩
      · rw [(run_of_failsSilently hcall hend).1, hcode, hfirst.eq hfirst']
      · exact absurd hpanicked hloaded
    · exact absurd hfirst.1 (hpasses stage)
  · have hend : (i.run lib m (isColoured m.environment m.terminal)).FailsSilently
        (.config .panicked) := by
      change Settings.load lib m i.configDir = .error .panicked at hpanicked
      simp only [Invocation.run, hpanicked, Except.mapError, Printing.need_error_bind,
        Printing.failsSilently_throw]
    exact (run_of_failsSilently hcall hend).1
  · rcases i.run_cases lib m _ hstaged with ⟨stage, e, -, hend, -⟩ | ⟨-, hend⟩
    · exact (run_of_failsSilently hcall hend).2
    · exact absurd (run_of_completes hcall hend) hne
  · by_contra hwrong
    have hsource : i.source? = some source := by rw [Invocation.source?, haction]; rfl
    exact hzero.mp h .parsing (.parsing hload hsource htext hwrong)
  · exact hzero.mpr (not_fails_check haction hload htext hexpr)

end

theorem isStaged_check (noMemo : Bool) (directory : Option String) (source : Source) :
    Invocation.IsStaged ⟨noMemo, directory, some (.check source)⟩ := Or.inr ⟨source, rfl⟩

/-- A directory in the place of the settings file, and nothing else. -/
def blockedSurroundings : Surroundings where
  file path := if path = ".exprtree.toml" then .directory else .absent
  input := .ok ""
  environment := []
  accountHome := none
  directory := .ok ""
  terminal := false

/-- Settings and expression cannot be read, and the settings come first. -/
theorem stages_decide_blockedSurroundings :
    ∃ i, Libraries.standard.call ["check", "-f", "x"] = .run i ∧ i.IsStaged ∧
      Fails .standard blockedSurroundings i .settings ∧
        Fails .standard blockedSurroundings i .reading ∧
          (run .standard blockedSurroundings ["check", "-f", "x"]).exit = 78 := by
  have hcall : Libraries.standard.call ["check", "-f", "x"] =
      .run ⟨false, none, some (.check ⟨none, some "x"⟩)⟩ := by cbv
  have hstaged := isStaged_check false none ⟨none, some "x"⟩
  have hload : Settings.load .standard blockedSurroundings none =
      .error (.unreadable ".exprtree.toml" "Is a directory (os error 21)") := by cbv
  have hfirst : FailsFirst .standard blockedSurroundings
      ⟨false, none, some (.check ⟨none, some "x"⟩)⟩ .settings :=
    ⟨.settings hload, fun _ h => absurd h (Nat.not_lt_zero _)⟩
  refine ⟨_, hcall, hstaged, hfirst.1, .reading rfl (by cbv), ?_⟩
  refine (stages_decide .standard _ _ _ hcall hstaged).1 .settings hfirst fun h => ?_
  cases hload.symm.trans h

/-- No file, and a variable whose key cannot be followed. -/
def misnamedSurroundings : Surroundings :=
  { blockedSurroundings with
    file := fun _ => .absent, environment := [(.text "EXPRTREE_X[-1]", .text "1")] }

/-- The settings fail first, without their exit code. -/
theorem run_misnamedSurroundings :
    ∃ i, Libraries.standard.call ["check", "a"] = .run i ∧ i.IsStaged ∧
      FailsFirst .standard misnamedSurroundings i .settings ∧
        (run .standard misnamedSurroundings ["check", "a"]).exit = 101 := by
  have hcall : Libraries.standard.call ["check", "a"] =
      .run ⟨false, none, some (.check ⟨some "a", none⟩)⟩ := by cbv
  have hload : Settings.load .standard misnamedSurroundings none = .error .panicked := by cbv
  have hend : (Invocation.run .standard misnamedSurroundings
      (isColoured misnamedSurroundings.environment misnamedSurroundings.terminal)
      ⟨false, none, some (.check ⟨some "a", none⟩)⟩).FailsSilently (.config .panicked) := by
    simp only [Invocation.run, hload, Except.mapError, Printing.need_error_bind,
      Printing.failsSilently_throw]
  exact ⟨_, hcall, isStaged_check false none _,
    ⟨.settings hload, fun _ h => absurd h (Nat.not_lt_zero _)⟩, (run_of_failsSilently hcall hend).1⟩

end Command

end ArithTree
