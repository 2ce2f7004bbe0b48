import ArithTree.Proofs.Placements
import ArithTree.Proofs.WrittenPaths
import ArithTree.Rearrangement

/-!
# Moving by path

A node that is named by its written path can be moved in two ways: by listing where it could go, and
by naming the slot. Both refuse the same paths for the same reasons (`resolveMovable_cases`), and
where they do not, naming a slot gives the candidate with that number (`moves_agree`).
-/

namespace ArithTree.Store

section

variable {s : Store} {root node : NodeId} {text : String} {path : List Nat}

/-! ## Resolving -/

theorem resolve_of_parse? (hread : NodePath.parse? text = some path)
    (hnode : s.nodeAt? path = some node) : s.resolve text = .ok node := by
  simp only [resolve, hread, hnode]

theorem resolveMovable_of_parse? (hread : NodePath.parse? text = some path)
    (hnode : s.nodeAt? path = some node) (hne : s.root ≠ some node) :
    s.resolveMovable text = .ok node := by
  simp only [resolveMovable, resolve_of_parse? hread hnode, if_neg hne]

/-- The path of a node, written out, leads back to it. -/
theorem resolve_format (hpath : s.pathOf? node = some path)
    (hfit : ∀ n ∈ path, n ≤ Text.Numeral.maxUnsigned) :
    s.resolve (NodePath.format path) = .ok node :=
  resolve_of_parse? (NodePath.parse?_format hfit) (nodeAt?_of_pathOf? hpath)

/-- A written path is refused as it stands or because it leads to the root; any other leads to a
node with a parent. -/
theorem Rooted.resolveMovable_cases (h : s.Rooted root) (text : String) :
    (∃ e, s.resolveMovable text = .error e ∧
      ((∃ given, e = .invalidPath given) ∨ e = .drag .rootNotMovable)) ∨
    ∃ node path position, s.resolve text = .ok node ∧ s.resolveMovable text = .ok node ∧
      NodePath.parse? text = some (path ++ [position]) ∧
        s.pathOf? node = some (path ++ [position]) := by
  cases hread : NodePath.parse? text with
  | none =>
    refine Or.inl ⟨.invalidPath (Text.trim text), ?_, Or.inl ⟨_, rfl⟩⟩
    simp only [resolveMovable, resolve, hread]
  | some p =>
    cases hnode : s.nodeAt? p with
    | none =>
      refine Or.inl ⟨.invalidPath text, ?_, Or.inl ⟨_, rfl⟩⟩
      simp only [resolveMovable, resolve, hread, hnode]
    | some node =>
      have hresolve := resolve_of_parse? hread hnode
      by_cases hroot : s.root = some node
      · refine Or.inl ⟨.drag .rootNotMovable, ?_, Or.inr rfl⟩
        simp only [resolveMovable, hresolve, if_pos hroot]
      · have hpath := h.pathOf?_eq_some_iff.mpr hnode
        obtain ⟨path, position, rfl⟩ := h.exists_snoc hpath hroot
        exact Or.inr ⟨node, path, position, hresolve, resolveMovable_of_parse? hread hnode hroot,
          rfl, hpath⟩

/-! ## Naming a slot -/

theorem relocate_of_place {slot : Nat} {p : Placement} (hmovable : s.resolveMovable text = .ok node)
    (hroot : s.root = some root) (hplace : s.place root ⟨node, slot⟩ = .ok p) :
    s.relocate text slot = .ok p := by
  simp only [relocate, hmovable, hroot, hplace]

/-- A slot behind the sibling list is out of range. -/
theorem WellFormed.relocate_of_le (h : s.WellFormed root) {parent : NodeId} {slot : Nat}
    (hmovable : s.resolveMovable text = .ok node) (hparent : s.parent? node = some parent)
    (hle : (s.children parent).length ≤ slot) :
    s.relocate text slot = .error (.slotOutOfRange slot (s.children parent).length) := by
  have hplace := place_of_le (r := ⟨node, slot⟩) h.toRooted
    (h.reached node (contains_of_parent? hparent)) hparent hle
  simp only [relocate, hmovable, h.marked, hplace, hparent, Option.elim_some]

/-! ## Both ways -/

/-- The candidates are the placements, each with its slot and its path. -/
theorem WellFormed.candidatesAt_eq (h : s.WellFormed root) {position : Nat}
    (hmovable : s.resolveMovable text = .ok node)
    (hpath : s.pathOf? node = some (path ++ [position])) :
    ∃ parent all, s.parent? node = some parent ∧ s.candidatesAt text = .ok all ∧
      all.length = (s.children parent).length ∧
        ∀ slot candidate, all[slot]? = some candidate →
          s.place root ⟨node, slot⟩ = .ok candidate.placement ∧
            s.Relocates parent ⟨node, slot⟩ candidate.placement ∧
              candidate.slot = slot ∧ candidate.path = path ++ [slot] ∧
                candidate.placement.tree.pathOf? candidate.placement.ghost =
                  some candidate.path := by
  obtain ⟨parent, hparent, -⟩ := h.parent_of_pathOf? hpath
  obtain ⟨all, hall, hlen, hplaced⟩ := h.exists_placements hparent
  have hcandidates : s.candidatesAt text = .ok (all.mapIdx fun index p =>
      ⟨p.slot?.getD index, (p.tree.pathOf? p.ghost).getD [], p⟩) := by
    simp only [candidatesAt, hmovable, hall]
  refine ⟨parent, _, hparent, hcandidates, by simpa using hlen, ?_⟩
  intro slot candidate hcandidate
  rw [List.getElem?_mapIdx, Option.map_eq_some_iff] at hcandidate
  obtain ⟨p, hp, rfl⟩ := hcandidate
  obtain ⟨hlt, rfl⟩ := List.getElem?_eq_some_iff.mp hp
  obtain ⟨hok, hrelocates⟩ := hplaced slot hlt
  have hnew := hrelocates.pathOf?_ghost hpath
  exact ⟨hok, hrelocates, by simp [hrelocates.slot], by simp [hnew], by simp [hnew]⟩

/-- **The two ways of moving agree.** A path that is refused when candidates are asked for is
refused for every slot, and for the same reason. Otherwise each slot that has a candidate gives this
candidate, and every slot behind them is out of range. A candidate is on the slot of its number, and
its path is that of the node but for the end. Written and read again, this path leads to the ghost,
unless the slot is larger than a machine word can name. -/
theorem moves_agree (s : Store) (root : NodeId) (h : s.WellFormed root) (text : String) :
    (∀ e, s.candidatesAt text = .error e →
      ((∃ given, e = .invalidPath given) ∨ e = .drag .rootNotMovable) ∧
        ∀ slot, s.relocate text slot = .error e) ∧
    ∀ all, s.candidatesAt text = .ok all →
      ∃ node path position, s.resolve text = .ok node ∧
        s.pathOf? node = some (path ++ [position]) ∧
        (∀ slot, all.length ≤ slot →
          s.relocate text slot = .error (.slotOutOfRange slot all.length)) ∧
        ∀ slot candidate, all[slot]? = some candidate →
          s.relocate text slot = .ok candidate.placement ∧
          candidate.slot = slot ∧ candidate.placement.slot? = some slot ∧
          candidate.path = path ++ [slot] ∧
          candidate.placement.tree.pathOf? candidate.placement.ghost = some candidate.path ∧
          (slot ≤ Text.Numeral.maxUnsigned →
            candidate.placement.tree.resolve (NodePath.format candidate.path) =
              .ok candidate.placement.ghost) := by
  rcases h.resolveMovable_cases text with ⟨e, he, hreason⟩ |
    ⟨node, path, position, hresolve, hmovable, hread, hpath⟩
  · refine ⟨fun e' he' => ?_, fun all hall => ?_⟩
    · simp only [candidatesAt, he] at he'
      obtain rfl := Except.error.inj he'
      exact ⟨hreason, fun slot => by simp only [relocate, he]⟩
    · simp only [candidatesAt, he] at hall
      cases hall
  · obtain ⟨parent, all, hparent, hall, hlen, hcandidates⟩ := h.candidatesAt_eq hmovable hpath
    refine ⟨fun e he => (by rw [hall] at he; cases he), fun all' hall' => ?_⟩
    obtain rfl := Except.ok.inj (hall.symm.trans hall')
    refine ⟨node, path, position, hresolve, hpath, fun slot hle => ?_, fun slot candidate hc => ?_⟩
    · rw [hlen] at hle ⊢
      exact h.relocate_of_le hmovable hparent hle
    · obtain ⟨hok, hrelocates, hslot, hend, hghost⟩ := hcandidates slot candidate hc
      refine ⟨relocate_of_place hmovable h.marked hok, hslot, hrelocates.slot, hend, hghost,
        fun hfit => resolve_format hghost fun n hn => ?_⟩
      rw [hend] at hn
      rcases List.mem_append.mp hn with hn | hn
      · exact NodePath.le_maxUnsigned_of_parse? hread n (List.mem_append_left _ hn)
      · rwa [List.mem_singleton.mp hn]

end

/-- The second operand of a sum of two has a candidate on either slot and none behind. -/
theorem moves_agree_sumOfNames : sumOfNames.WellFormed 0 ∧
    ∃ all, sumOfNames.candidatesAt "1" = .ok all ∧ all.length = 2 ∧
      (∀ slot candidate, all[slot]? = some candidate →
        sumOfNames.relocate "1" slot = .ok candidate.placement) ∧
      sumOfNames.relocate "1" 2 = .error (.slotOutOfRange 2 2) := by
  have hmovable : sumOfNames.resolveMovable "1" = .ok 2 := rfl
  have hpath : sumOfNames.pathOf? 2 = some ([] ++ [1]) := by decide
  obtain ⟨parent, all, hparent, hall, hlen, -⟩ :=
    wellFormed_sumOfNames.candidatesAt_eq hmovable hpath
  obtain rfl : parent = 0 := (Option.some.inj hparent).symm
  obtain ⟨_, _, _, _, _, hbehind, hcandidates⟩ :=
    (moves_agree sumOfNames 0 wellFormed_sumOfNames "1").2 all hall
  have hbehind := hbehind 2 hlen.le
  rw [hlen] at hbehind
  exact ⟨wellFormed_sumOfNames, all, hall, hlen, fun slot candidate hc =>
    (hcandidates slot candidate hc).1, hbehind⟩

end ArithTree.Store
