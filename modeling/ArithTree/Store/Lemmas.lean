import ArithTree.Store.Basic

/-!
# Reading after writing

A store is seen through `node?`. For every operation that writes, one lemma says what is read at
each handle afterwards, and the root and the ghost are read off the definitions. Handles that were
never given out read as removed ones.
-/

namespace ArithTree.Store

theorem lt_size_of_node? {s : Store} {id : NodeId} {node : Node} (h : s.node? id = some node) :
    id < s.slots.size := by
  by_cases hb : id < s.slots.size
  · exact hb
  · simp [node?, hb] at h

theorem lt_size_of_contains {s : Store} {id : NodeId} (h : s.contains id = true) :
    id < s.slots.size := by
  obtain ⟨node, hn⟩ := Option.isSome_iff_exists.mp h
  exact lt_size_of_node? hn

theorem contains_of_node? {s : Store} {id : NodeId} {node : Node} (h : s.node? id = some node) :
    s.contains id = true := by
  rw [contains, h]
  rfl

theorem node?_eq_none_of_size_le {s : Store} {id : NodeId} (h : s.slots.size ≤ id) :
    s.node? id = none := by
  simp [node?, Nat.not_lt.mpr h]

@[simp] theorem node?_empty (id : NodeId) : empty.node? id = none := by
  simp [node?, empty]

/-! ## Changing in place -/

@[simp] theorem root_update (s : Store) (id : NodeId) (f : Node → Node) :
    (s.update id f).root = s.root := rfl

@[simp] theorem ghost_update (s : Store) (id : NodeId) (f : Node → Node) :
    (s.update id f).ghost = s.ghost := rfl

@[simp] theorem size_slots_update (s : Store) (id : NodeId) (f : Node → Node) :
    (s.update id f).slots.size = s.slots.size := by
  simp [update]

theorem node?_update (s : Store) (id other : NodeId) (f : Node → Node) :
    (s.update id f).node? other = if other = id then (s.node? id).map f else s.node? other := by
  unfold node? update
  by_cases h : other = id
  · subst h
    rw [if_pos rfl]
    by_cases hb : other < s.slots.size
    · simp [hb, Array.getElem_modify]
    · simp [hb]
  · rw [if_neg h]
    by_cases hb : other < s.slots.size
    · simp [hb, Array.getElem_modify, Ne.symm h]
    · simp [hb]

theorem node?_setParent (s : Store) (id other : NodeId) (parent : Option NodeId) :
    (s.setParent id parent).node? other =
      if other = id then (s.node? id).map fun node => { node with parent } else s.node? other :=
  node?_update s id other _

theorem node?_list (s : Store) (parent child other : NodeId) :
    (s.list parent child).node? other =
      if other = parent then
        (s.node? parent).map fun node => { node with children := node.children ++ [child] }
      else s.node? other :=
  node?_update s parent other _

/-- An update that keeps labels keeps the label of every handle. -/
theorem label?_update (s : Store) (id other : NodeId) (f : Node → Node)
    (h : ∀ node, (f node).label = node.label) : (s.update id f).label? other = s.label? other := by
  unfold label?
  rw [node?_update]
  split
  · next same =>
    subst same
    cases s.node? other with
    | none => rfl
    | some node => simp [h]
  · rfl

/-! ## Adding -/

/-- The handle of a new node is the number of handles given out so far. -/
theorem insert_fst (s : Store) (label : Label) (parent : Option NodeId) :
    (s.insert label parent).1 = s.slots.size := by
  unfold insert
  cases parent <;> rfl

theorem node?_insert_none (s : Store) (label : Label) (other : NodeId) :
    (s.insert label none).2.node? other =
      if other = s.slots.size then some ⟨label, none, []⟩ else s.node? other := by
  simp only [insert, node?, Array.getElem?_push]
  split <;> simp_all

/-- The new node reads as it was given, unless it was put under its own handle. The node it was put
under lists it last, and all others read as before. -/
theorem node?_insert_some (s : Store) (label : Label) (p other : NodeId) (h : p ≠ s.slots.size) :
    (s.insert label (some p)).2.node? other =
      if other = s.slots.size then some ⟨label, some p, []⟩
      else if other = p then
        (s.node? p).map fun node => { node with children := node.children ++ [s.slots.size] }
      else s.node? other := by
  have pushed :
    ∀ id, ({ s with slots := s.slots.push (some ⟨label, some p, []⟩) } : Store).node? id =
      if id = s.slots.size then some ⟨label, some p, []⟩ else s.node? id := by
    intro id
    simp only [node?, Array.getElem?_push]
    split <;> simp_all
  simp only [insert]
  rw [node?_list, pushed, pushed, if_neg h]
  by_cases hp : other = p
  · subst hp
    simp [h]
  · simp [hp]

/-! ## Removing -/

theorem node?_erase (s : Store) (id other : NodeId) :
    (s.erase id).node? other = if other = id then none else s.node? other := by
  unfold node? erase
  by_cases h : other = id
  · subst h
    by_cases hb : other < s.slots.size
    · simp [Array.setIfInBounds, hb]
    · simp [Array.setIfInBounds, hb]
  · by_cases hb : id < s.slots.size
    · simp [Array.setIfInBounds, hb, h, Ne.symm h]
    · simp [Array.setIfInBounds, hb, h]

end ArithTree.Store
