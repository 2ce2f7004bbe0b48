import ArithTree.Settings.KeyTree
import Mathlib.Data.List.Basic

/-!
# A tree of settings keeps what nobody overwrites

Setting a key puts its text at the end of its path (`get?_set_self`), leaves what is at the end of a
path that parts from it (`get?_set_of_passes`), and brings no other text (`textAt_set`). So after
all variables are set, one that no other gets in the way of has kept its place, and nothing stands
where no variable has put it. With that, the reader that sets one variable after the other has all
that is relied on (`inOrder_lawful`).
-/

namespace ArithTree

namespace KeyTree

open KeyPath (ofNames)

/-! ## Entries -/

section

variable {α : Type} [BEq α] [LawfulBEq α] {key key' : α} {tree : KeyTree}
  {entries : List (α × KeyTree)}

theorem lookup_filter (h : key' ≠ key) :
    (entries.filter fun e => e.1 != key).lookup key' = entries.lookup key' := by
  induction entries with
  | nil => rfl
  | cons e entries ih =>
    by_cases he : e.1 = key
    · have hother : (key' == e.1) = false := beq_false_of_ne (he ▸ h)
      rw [List.filter_cons_of_neg (by simp [he]), ih, List.lookup_cons, hother]
    · rw [List.filter_cons_of_pos (by simp [he]), List.lookup_cons, List.lookup_cons, ih]

theorem lookup_put_self : (put key tree entries).lookup key = some tree := by
  rw [put, List.lookup_cons, beq_self_eq_true]

theorem lookup_put_of_ne (h : key' ≠ key) :
    (put key tree entries).lookup key' = entries.lookup key' := by
  rw [put, List.lookup_cons, beq_false_of_ne h]
  exact lookup_filter h

end

/-! ## One key -/

variable {text : String} {tree tree' : KeyTree} {path : KeyPath}

/-- The tree with the text, for a path that starts with a name. -/
theorem set_member {name : String} : tree.set text (.member name :: path) = some tree' ↔
    ∃ inner, ((tree.fields.lookup name).getD .empty).set text path = some inner ∧
      tree' = .table (put name inner tree.fields) := by
  simp only [set, Option.bind_eq_bind, Option.bind_eq_some_iff, Option.pure_def,
    Option.some.injEq]
  exact exists_congr fun _ => and_congr_right fun _ => eq_comm

/-- A position makes a list of the tree. -/
theorem set_position {index : Int} (h : tree.set text (.position index :: path) = some tree') :
    tree'.fields = [] ∧ tree'.text? = none := by
  simp only [set, Option.bind_eq_bind, Option.bind_eq_some_iff, Option.pure_def,
    Option.some.injEq] at h
  obtain ⟨place, -, inner, -, rfl⟩ := h
  exact ⟨rfl, rfl⟩

theorem get?_ofNames_cons {name : String} {names : List String} :
    tree.get? (ofNames (name :: names)) =
      (tree.fields.lookup name).bind (get? (ofNames names)) := rfl

/-- Nothing is below an empty tree. -/
theorem get?_empty {name : String} {names : List String} :
    KeyTree.empty.get? (ofNames (name :: names)) = none := rfl

/-- The text is at the end of its path. -/
theorem get?_set_self (names : List String) : ∀ {tree tree' : KeyTree},
    tree.set text (ofNames names) = some tree' →
      tree'.get? (ofNames names) = some (.text text) := by
  induction names with
  | nil =>
    intro tree tree' h
    exact h.symm
  | cons name names ih =>
    intro tree tree' h
    obtain ⟨inner, hinner, rfl⟩ := set_member.mp h
    rw [get?_ofNames_cons, fields, lookup_put_self, Option.bind_some]
    exact ih hinner

/-- Names can always be followed. -/
theorem exists_set (text : String) (names : List String) : ∀ tree : KeyTree,
    ∃ tree', tree.set text (ofNames names) = some tree' := by
  induction names with
  | nil => exact fun _ => ⟨_, rfl⟩
  | cons name names ih =>
    intro tree
    obtain ⟨inner, hinner⟩ := ih ((tree.fields.lookup name).getD .empty)
    exact ⟨_, set_member.mpr ⟨inner, hinner, rfl⟩⟩

/-- What a path passes by stays as it was. -/
theorem get?_set_of_passes {path : KeyPath} : ∀ {names : List String} {tree tree' : KeyTree},
    path.Passes names → tree.set text path = some tree' →
      tree'.get? (ofNames names) = tree.get? (ofNames names) := by
  induction path with
  | nil => exact fun hpass => hpass.elim
  | cons step path ih =>
    intro names tree tree' hpass h
    match step, names, hpass with
    | .member name', name :: names, hpass =>
      obtain ⟨inner, hinner, rfl⟩ := set_member.mp h
      rw [get?_ofNames_cons, get?_ofNames_cons, fields]
      by_cases hname : name = name'
      · obtain rfl := hname
        have hbelow := hpass.resolve_left fun hne => hne rfl
        rw [lookup_put_self, Option.bind_some, ih hbelow hinner]
        cases tree.fields.lookup name with
        | some child => rfl
        | none =>
          -- where nothing was, nothing but an empty tree can be passed by
          match path, names, hbelow with
          | .member _ :: _, _ :: _, _ => exact get?_empty
      · rw [lookup_put_of_ne hname]

/-- The text at the end of a path of names. -/
def textAt (names : List String) (tree : KeyTree) : Option String :=
  (tree.get? (ofNames names)).bind text?

theorem textAt_cons {name : String} {names : List String} :
    tree.textAt (name :: names) = (tree.fields.lookup name).bind (textAt names) := by
  rw [textAt, get?_ofNames_cons, Option.bind_assoc]
  rfl

/-- There is no text below nothing. -/
theorem textAt_getD (child? : Option KeyTree) :
    (child?.getD .empty).textAt names = child?.bind (textAt names) := by
  cases child? with
  | some child => rfl
  | none => cases names <;> rfl

/-- A text that is there after a key was set was set with it, or was there before. -/
theorem textAt_set {found : String} {path : KeyPath} :
    ∀ {names : List String} {tree tree' : KeyTree},
    tree.set text path = some tree' → tree'.textAt names = some found →
      path = ofNames names ∧ text = found ∨ tree.textAt names = some found := by
  induction path with
  | nil =>
    intro names tree tree' h hfound
    obtain rfl := Option.some.inj h
    cases names with
    | nil => exact Or.inl ⟨rfl, Option.some.inj hfound⟩
    | cons name names => cases hfound
  | cons step path ih =>
    intro names tree tree' h hfound
    cases step with
    | position index =>
      obtain ⟨hfields, htext⟩ := set_position h
      cases names with
      | nil => cases htext.symm.trans hfound
      | cons name names =>
        rw [textAt_cons, hfields] at hfound
        cases hfound
    | member name' =>
      obtain ⟨inner, hinner, rfl⟩ := set_member.mp h
      cases names with
      | nil => cases hfound
      | cons name names =>
        rw [textAt_cons, fields] at hfound
        rw [textAt_cons]
        by_cases hname : name = name'
        · obtain rfl := hname
          rw [lookup_put_self, Option.bind_some] at hfound
          rcases ih hinner hfound with ⟨rfl, htext⟩ | hbefore
          · exact Or.inl ⟨rfl, htext⟩
          · exact Or.inr ((textAt_getD _).symm.trans hbefore)
        · rw [lookup_put_of_ne hname] at hfound
          exact Or.inr hfound

/-! ## All variables -/

variable {vars : Variables} {names : List String}

/-- Variables that pass by leave the text where it was. -/
theorem get?_setVariables (hpass : ∀ v ∈ vars, ∀ path, KeyPath.ofVariable? v.1 = some path →
    path.Passes names ∨ path = ofNames names ∧ v.2 = text) :
    ∀ {tree tree' : KeyTree}, tree.get? (ofNames names) = some (.text text) →
      vars.foldlM setVariable tree = some tree' →
        tree'.get? (ofNames names) = some (.text text) := by
  induction vars with
  | nil =>
    intro tree tree' h hset
    rwa [← Option.some.inj hset]
  | cons v vars ih =>
    intro tree tree' h hset
    rw [List.foldlM_cons] at hset
    obtain ⟨next, hnext, hset⟩ := Option.bind_eq_some_iff.mp hset
    refine ih (fun w hw => hpass w (List.mem_cons_of_mem v hw)) ?_ hset
    unfold setVariable at hnext
    split at hnext
    · next path hpath =>
      rcases hpass v (List.mem_cons_self ..) path hpath with hby | ⟨rfl, rfl⟩
      · rw [get?_set_of_passes hby hnext, h]
      · exact get?_set_self names hnext
    · rwa [← Option.some.inj hnext]

/-- A text that is there after the variables were set was set with one of them. -/
theorem mem_of_textAt {found : String} : ∀ {tree tree' : KeyTree},
    vars.foldlM setVariable tree = some tree' → tree'.textAt names = some found →
      (∃ v ∈ vars, KeyPath.ofVariable? v.1 = some (ofNames names) ∧ v.2 = found) ∨
        tree.textAt names = some found := by
  induction vars with
  | nil =>
    intro tree tree' hset hfound
    rw [← Option.some.inj hset] at hfound
    exact Or.inr hfound
  | cons v vars ih =>
    intro tree tree' hset hfound
    rw [List.foldlM_cons] at hset
    obtain ⟨next, hnext, hset⟩ := Option.bind_eq_some_iff.mp hset
    rcases ih hset hfound with ⟨w, hw, hwith⟩ | hbefore
    · exact Or.inl ⟨w, List.mem_cons_of_mem v hw, hwith⟩
    · unfold setVariable at hnext
      split at hnext
      · next path hpath =>
        rcases textAt_set hnext hbefore with ⟨rfl, htext⟩ | hbefore
        · exact Or.inl ⟨v, List.mem_cons_self .., hpath, htext⟩
        · exact Or.inr hbefore
      · rw [← Option.some.inj hnext] at hbefore
        exact Or.inr hbefore

/-- Variables that name no position are all set. -/
theorem exists_setVariables (h : ∀ v ∈ vars, ∀ path, KeyPath.ofVariable? v.1 = some path →
    ∃ names, path = ofNames names) :
    ∀ tree : KeyTree, ∃ tree', vars.foldlM setVariable tree = some tree' := by
  induction vars with
  | nil => exact fun tree => ⟨tree, rfl⟩
  | cons v vars ih =>
    intro tree
    have hfirst : ∃ next, tree.setVariable v = some next := by
      unfold setVariable
      split
      · next path hpath =>
        obtain ⟨names, rfl⟩ := h v (List.mem_cons_self ..) path hpath
        exact exists_set v.2 names tree
      · exact ⟨tree, rfl⟩
    obtain ⟨next, hnext⟩ := hfirst
    obtain ⟨tree', hset⟩ := ih (fun w hw => h w (List.mem_cons_of_mem v hw)) next
    exact ⟨tree', by rw [List.foldlM_cons, hnext]; exact hset⟩

theorem textAt?_of_isKey {key : String} (hkey : KeyPath.IsKey key names) :
    tree.textAt? key = tree.textAt names := by
  rw [textAt?, hkey.1]
  rfl

end KeyTree

/-! ## Numbers -/

theorem Text.Numeral.le_of_digitsUpTo? {limit n : Nat} {cs : List Char}
    (h : digitsUpTo? limit cs = some n) : n ≤ limit :=
  of_decide_eq_true (Option.filter_eq_some_iff.mp h).2

theorem Text.Numeral.signed?_inRange {cs : List Char} {n : Int} (h : signed? cs = some n) :
    -(maxSigned : Int) - 1 ≤ n ∧ n ≤ (maxSigned : Int) := by
  unfold signed? at h
  split at h
  · obtain ⟨m, hdigits, rfl⟩ := Option.map_eq_some_iff.mp h
    obtain ⟨k, hdigits, hk⟩ := Option.bind_eq_some_iff.mp hdigits
    change some (k : Int) = some m at hk
    have hle := le_of_digitsUpTo? hdigits
    have hm := Option.some.inj hk
    constructor <;> omega
  all_goals
    obtain ⟨m, hdigits, rfl⟩ := Option.map_eq_some_iff.mp h
    have hle := le_of_digitsUpTo? hdigits
    rw [Int.ofNat_eq_natCast]
    constructor <;> omega

/-! ## Laws -/

namespace Reader

variable {env : Environment} {vars : Variables} {c : Configuration}

/-- All variables are text exactly when their texts can be given. -/
theorem texts?_eq_some_iff : texts? env = some vars ↔ env.IsText ∧ env.textPairs = vars := by
  unfold texts? Environment.IsText Environment.textPairs
  induction env generalizing vars with
  | nil => exact ⟨fun h => ⟨fun _ hv => (by cases hv), Option.some.inj h⟩,
      fun h => congrArg some h.2⟩
  | cons v env ih =>
    rw [List.mapM_cons]
    cases hv : Environment.textPair? v with
    | none => simp [hv]
    | some pair =>
      simp only [Option.bind_eq_bind, Option.bind_some, Option.bind_eq_some_iff, Option.pure_def,
        Option.some.injEq, ih, List.forall_mem_cons, hv, Option.isSome_some, true_and,
        List.filterMap_cons_some hv]
      constructor
      · rintro ⟨_, ⟨htext, rfl⟩, rfl⟩
        exact ⟨htext, rfl⟩
      · rintro ⟨htext, rfl⟩
        exact ⟨_, ⟨htext, rfl⟩, rfl⟩

/-- What has been built is the tree of all variables. -/
theorem inOrder_build (h : inOrder.build env = .built c) :
    ∃ tree, tree? env.textPairs = some tree ∧ c = ofTree tree := by
  simp only [inOrder] at h
  split at h
  · next tree htree =>
    obtain ⟨vars, htexts, htree⟩ := Option.bind_eq_some_iff.mp htree
    obtain ⟨-, rfl⟩ := texts?_eq_some_iff.mp htexts
    exact ⟨tree, htree, (Build.built.inj h).symm⟩
  · cases h

theorem number?_inRange {text : String} {n : Int} (h : number? text = some n) :
    -(Text.Numeral.maxSigned : Int) - 1 ≤ n ∧ n ≤ (Text.Numeral.maxSigned : Int) := by
  unfold number? at h
  simp only at h
  split at h
  · obtain rfl := Option.some.inj h
    decide
  · split at h
    · obtain rfl := Option.some.inj h
      decide
    · exact Text.Numeral.signed?_inRange h

section

variable {key : String} {names : List String} {tree : KeyTree} (htree : tree? vars = some tree)
  (hkey : KeyPath.IsKey key names)

include htree hkey

/-- A variable that no other one gets in the way of puts its text under its key, and all variables
after it keep it there. -/
theorem textAt?_of_mem {v : String × String} (hv : v ∈ vars)
    (hnames : KeyPath.ofVariable? v.1 = some (.ofNames names))
    (hothers : ∀ w ∈ vars, w = v ∨
      ∀ path, KeyPath.ofVariable? w.1 = some path → path.Passes names) :
    tree.textAt? key = some v.2 := by
  have hpass : ∀ w ∈ vars, ∀ path, KeyPath.ofVariable? w.1 = some path →
      path.Passes names ∨ path = .ofNames names ∧ w.2 = v.2 := by
    intro w hw path hpath
    rcases hothers w hw with rfl | hby
    · exact Or.inr ⟨Option.some.inj (hpath.symm.trans hnames), rfl⟩
    · exact Or.inl (hby path hpath)
  obtain ⟨before, after, rfl⟩ := List.append_of_mem hv
  rw [tree?, List.foldlM_append] at htree
  obtain ⟨next, -, htree⟩ := Option.bind_eq_some_iff.mp htree
  rw [List.foldlM_cons] at htree
  obtain ⟨start, hstart, htree⟩ := Option.bind_eq_some_iff.mp htree
  have hself : start.get? (.ofNames names) = some (.text v.2) := by
    simp only [KeyTree.setVariable, hnames] at hstart
    exact KeyTree.get?_set_self names hstart
  have hkept := KeyTree.get?_setVariables
    (fun w hw => hpass w (List.mem_append_right _ (List.mem_cons_of_mem _ hw))) hself htree
  rw [KeyTree.textAt?_of_isKey hkey, KeyTree.textAt, hkept]
  rfl

/-- There is no text under a key but that of a variable. -/
theorem mem_of_textAt? {text : String} (hfound : tree.textAt? key = some text) :
    ∃ v ∈ vars, KeyPath.ofVariable? v.1 = some (.ofNames names) ∧ v.2 = text := by
  rw [KeyTree.textAt?_of_isKey hkey] at hfound
  rcases KeyTree.mem_of_textAt htree hfound with hmem | hnone
  · exact hmem
  · cases names <;> cases hnone

end

/-- Setting the variables in their order is all that is relied on. -/
theorem inOrder_lawful : inOrder.Lawful where
  built_of_names {env} htext hnames := by
    obtain ⟨tree, htree⟩ := KeyTree.exists_setVariables hnames (.table [])
    refine ⟨ofTree tree, ?_⟩
    have htexts := texts?_eq_some_iff.mpr ⟨htext, rfl⟩
    simp only [inOrder, htexts, Option.bind_some, tree?, htree]
  not_refuses {env} _ h := by
    obtain ⟨reason, h⟩ := h
    simp only [inOrder] at h
    split at h <;> cases h
  text?_of_mem h hkey hv hnames hothers := by
    obtain ⟨tree, htree, rfl⟩ := inOrder_build h
    exact textAt?_of_mem htree hkey hv hnames hothers
  mem_of_text? h hkey hfound := by
    obtain ⟨tree, htree, rfl⟩ := inOrder_build h
    exact mem_of_textAt? htree hkey hfound
  boolean?_eq {env c} key h := by
    obtain ⟨tree, -, rfl⟩ := inOrder_build h
    rfl
  integer?_eq {env c} key h := by
    obtain ⟨tree, -, rfl⟩ := inOrder_build h
    rfl
  integer?_inRange h := number?_inRange h

end Reader

end ArithTree
