import RingTape.Store.Copy
import Mathlib.Data.List.Nodup
import Mathlib.Data.List.Perm.Basic

/-!
Trees of cells as lists of nodes. A look-up, an amendment and the release of a subtree are all read off the
list of nodes of a forest: when no slot occurs twice, the nodes of an amended forest are those of the new cell
and, unchanged but for what hangs below them, those that stood outside the old one.
-/

namespace RingTape

set_option autoImplicit false

namespace Ring

variable {α β : Type}

/-- Change every member. -/
def map (change : α → β) (ring : Ring α) : Ring β :=
  ⟨ring.forward.map change, ring.backward.map change⟩

@[simp]
theorem members_map (change : α → β) (ring : Ring α) :
    (ring.map change).members = ring.members.map change := by
  simp [map, members]

@[simp]
theorem line_map (change : α → β) (ring : Ring α) : (ring.map change).line = ring.line.map change := by
  simp [map, line]

@[simp]
theorem size_map (change : α → β) (ring : Ring α) : (ring.map change).size = ring.size := by
  simp [map, size]

theorem map_eq_self (change : α → α) (ring : Ring α)
    (fixed : ∀ member ∈ ring.members, change member = member) : ring.map change = ring := by
  have forwardFixed : ring.forward.map change = ring.forward.map id :=
    List.map_congr_left fun member inside => fixed member (by simp [members, inside])
  have backwardFixed : ring.backward.map change = ring.backward.map id :=
    List.map_congr_left fun member inside => fixed member (by simp [members, inside])
  simp only [map, forwardFixed, backwardFixed, List.map_id]

theorem map_congr (left right : α → β) (ring : Ring α)
    (same : ∀ member ∈ ring.members, left member = right member) : ring.map left = ring.map right := by
  have forwardSame : ring.forward.map left = ring.forward.map right :=
    List.map_congr_left fun member inside => same member (by simp [members, inside])
  have backwardSame : ring.backward.map left = ring.backward.map right :=
    List.map_congr_left fun member inside => same member (by simp [members, inside])
  simp only [map, forwardSame, backwardSame]

end Ring

namespace Cell

mutual

/-- What passes from the children of a cell to the cell holds of every cell. -/
theorem treeInduction {motive : Cell → Prop}
    (step : ∀ cell : Cell, (∀ child ∈ cell.ring.members, motive child) → motive cell) (cell : Cell) :
    motive cell := by
  match cell with
  | ⟨id, value, ⟨forward, backward⟩⟩ =>
      apply step
      intro child inside
      rcases List.mem_append.mp inside with ahead | behind
      · exact forestInduction step forward child ahead
      · exact forestInduction step backward child behind

theorem forestInduction {motive : Cell → Prop}
    (step : ∀ cell : Cell, (∀ child ∈ cell.ring.members, motive child) → motive cell) (cells : List Cell) :
    ∀ child ∈ cells, motive child := by
  match cells with
  | [] => simp
  | cell :: rest =>
      intro child inside
      rcases List.mem_cons.mp inside with same | later
      · rw [same]
        exact treeInduction step cell
      · exact forestInduction step rest child later

end

-- A cell holds cells, so this is no definitional equality.
@[simp]
theorem mk_fields (cell : Cell) : (⟨cell.id, cell.value, cell.ring⟩ : Cell) = cell := by
  cases cell
  rfl

theorem forestNodes_eq (cells : List Cell) : forestNodes cells = cells.flatMap nodes := by
  induction cells with
  | nil => rfl
  | cons cell rest induction => simp [forestNodes, induction]

theorem nodes_eq (cell : Cell) : cell.nodes = cell :: cell.ring.members.flatMap nodes := by
  rcases cell with ⟨id, value, ⟨forward, backward⟩⟩
  simp [nodes, forestNodes_eq, Ring.members]

theorem forestAmend_eq (target : CellId) (change : Cell → Cell) (cells : List Cell) :
    forestAmend target change cells = cells.map (amend target change) := by
  induction cells with
  | nil => rfl
  | cons cell rest induction => simp [forestAmend, induction]

theorem amend_eq (target : CellId) (change : Cell → Cell) (cell : Cell) :
    cell.amend target change =
      if cell.id = target then change cell
      else { cell with ring := cell.ring.map (amend target change) } := by
  rcases cell with ⟨id, value, ⟨forward, backward⟩⟩
  simp [amend, forestAmend_eq, Ring.map]

theorem amend_self (cell : Cell) (change : Cell → Cell) : cell.amend cell.id change = change cell := by
  simp [amend_eq]

theorem amend_of_ne (target : CellId) (change : Cell → Cell) (cell : Cell) (other : cell.id ≠ target) :
    cell.amend target change = { cell with ring := cell.ring.map (amend target change) } := by
  simp [amend_eq, other]

theorem mem_nodes_self (cell : Cell) : cell ∈ cell.nodes := by
  rw [nodes_eq]
  exact List.mem_cons_self

theorem mem_nodes_of_member (cell child node : Cell) (inside : child ∈ cell.ring.members)
    (below : node ∈ child.nodes) : node ∈ cell.nodes := by
  rw [nodes_eq]
  exact List.mem_cons_of_mem _ (List.mem_flatMap.mpr ⟨child, inside, below⟩)

theorem mem_forestNodes (cells : List Cell) (node : Cell) :
    node ∈ forestNodes cells ↔ ∃ cell ∈ cells, node ∈ cell.nodes := by
  simp [forestNodes_eq]

theorem nodes_subset (top : Cell) : ∀ node ∈ top.nodes, ∀ below ∈ node.nodes, below ∈ top.nodes := by
  induction top using treeInduction with
  | step top induction =>
      intro node inside below deeper
      rw [nodes_eq] at inside
      rcases List.mem_cons.mp inside with same | lower
      · rwa [← same]
      · obtain ⟨child, member, under⟩ := List.mem_flatMap.mp lower
        exact mem_nodes_of_member top child below member (induction child member node under below deeper)

theorem forestNodes_subset (cells : List Cell) (node : Cell) (inside : node ∈ forestNodes cells)
    (below : Cell) (deeper : below ∈ node.nodes) : below ∈ forestNodes cells := by
  obtain ⟨top, member, under⟩ := (mem_forestNodes cells node).mp inside
  exact (mem_forestNodes cells below).mpr ⟨top, member, nodes_subset top node under below deeper⟩

theorem nodes_length_lt_of_member (cell child : Cell) (inside : child ∈ cell.ring.members) :
    child.nodes.length < cell.nodes.length := by
  obtain ⟨before, after, split⟩ := List.append_of_mem inside
  rw [nodes_eq cell, split]
  simp
  omega

/-- The slots of a cell and of everything below it. -/
def ids (cell : Cell) : List CellId :=
  cell.nodes.map Cell.id

def forestIds (cells : List Cell) : List CellId :=
  (forestNodes cells).map Cell.id

@[simp]
theorem forestIds_nil : forestIds [] = [] := rfl

@[simp]
theorem forestIds_cons (cell : Cell) (rest : List Cell) :
    forestIds (cell :: rest) = cell.ids ++ forestIds rest := by
  simp [forestIds, ids, forestNodes]

@[simp]
theorem forestIds_append (left right : List Cell) :
    forestIds (left ++ right) = forestIds left ++ forestIds right := by
  simp [forestIds, forestNodes_eq]

theorem forestIds_perm {left right : List Cell} (rearranged : left.Perm right) :
    (forestIds left).Perm (forestIds right) := by
  simp only [forestIds, forestNodes_eq]
  exact (rearranged.flatMap_right nodes).map Cell.id

theorem ids_eq (cell : Cell) : cell.ids = cell.id :: forestIds cell.ring.members := by
  simp [ids, forestIds, nodes_eq cell, forestNodes_eq]

@[simp]
theorem ids_leaf (id : CellId) (value : Num) : (leaf id value).ids = [id] := by
  simp [ids_eq, leaf, Ring.empty, Ring.members]

theorem mem_ids (cell : Cell) (id : CellId) : id ∈ cell.ids ↔ ∃ node ∈ cell.nodes, node.id = id := by
  simp [ids]

theorem id_mem_ids (cell : Cell) : cell.id ∈ cell.ids := by
  rw [ids_eq]
  exact List.mem_cons_self

theorem mem_forestIds (cells : List Cell) (id : CellId) :
    id ∈ forestIds cells ↔ ∃ node ∈ forestNodes cells, node.id = id := by
  simp [forestIds]

theorem mem_forestIds_iff_mem_ids (cells : List Cell) (id : CellId) :
    id ∈ forestIds cells ↔ ∃ cell ∈ cells, id ∈ cell.ids := by
  simp only [mem_forestIds, mem_ids, mem_forestNodes]
  constructor
  · rintro ⟨node, ⟨cell, member, below⟩, same⟩
    exact ⟨cell, member, node, below, same⟩
  · rintro ⟨cell, member, node, below, same⟩
    exact ⟨node, ⟨cell, member, below⟩, same⟩

/-- Each list of slots in postorder holds the same slots as the list in preorder. -/
theorem postorder_perm (cell : Cell) : cell.postorder.Perm cell.ids := by
  induction cell using treeInduction with
  | step cell induction =>
      have forest (cells : List Cell) (each : ∀ child ∈ cells, child.postorder.Perm child.ids) :
          (forestPostorder cells).Perm (forestIds cells) := by
        induction cells with
        | nil => exact List.Perm.refl _
        | cons child rest further =>
            rw [forestPostorder, forestIds_cons]
            exact (each child (by simp)).append
              (further fun other member => each other (by simp [member]))
      rcases cell with ⟨id, value, ⟨forward, backward⟩⟩
      have ahead := forest forward fun child member => induction child (by simp [Ring.members, member])
      have behind := forest backward fun child member => induction child (by simp [Ring.members, member])
      rw [postorder, ids_eq]
      simp only [Ring.members, forestIds_append]
      exact (List.perm_append_comm).trans ((ahead.append behind).cons id)

theorem forestPostorder_perm (cells : List Cell) : (forestPostorder cells).Perm (forestIds cells) := by
  induction cells with
  | nil => exact List.Perm.refl _
  | cons cell rest induction =>
      rw [forestPostorder, forestIds_cons]
      exact (postorder_perm cell).append induction

theorem descendants_perm (cell : Cell) : cell.descendants.Perm (forestIds cell.ring.members) :=
  forestPostorder_perm cell.ring.members

theorem amend_of_not_mem (target : CellId) (change : Cell → Cell) (cell : Cell)
    (absent : target ∉ cell.ids) : cell.amend target change = cell := by
  induction cell using treeInduction with
  | step cell induction =>
      rw [ids_eq, List.mem_cons, not_or] at absent
      have kept : cell.ring.map (amend target change) = cell.ring := by
        apply Ring.map_eq_self
        intro child member
        apply induction child member
        intro present
        exact absent.2 ((mem_forestIds_iff_mem_ids _ _).mpr ⟨child, member, present⟩)
      rw [amend_of_ne target change cell (Ne.symm absent.1), kept, mk_fields]

theorem forestAmend_of_not_mem (target : CellId) (change : Cell → Cell) (cells : List Cell)
    (absent : target ∉ forestIds cells) : forestAmend target change cells = cells := by
  have kept : ∀ cell ∈ cells, cell.amend target change = (fun same => same) cell := by
    intro cell member
    apply amend_of_not_mem
    intro present
    exact absent ((mem_forestIds_iff_mem_ids _ _).mpr ⟨cell, member, present⟩)
  rw [forestAmend_eq, List.map_congr_left kept, List.map_id']

/-- Only what a change does to the cell in the slot matters. -/
theorem amend_unchanged (target : CellId) (cell : Cell) : cell.amend target (fun node => node) = cell := by
  induction cell using treeInduction with
  | step cell induction =>
      rw [amend_eq]
      split
      · rfl
      · rw [Ring.map_eq_self _ _ induction, mk_fields]

theorem amend_congr (target : CellId) (left right : Cell → Cell) (cell : Cell)
    (same : ∀ node ∈ cell.nodes, node.id = target → left node = right node) :
    cell.amend target left = cell.amend target right := by
  induction cell using treeInduction with
  | step cell induction =>
      rw [amend_eq, amend_eq]
      split
      case isTrue here => exact same cell (mem_nodes_self cell) here
      case isFalse _ =>
        rw [Ring.map_congr]
        intro child member
        exact induction child member fun node below =>
          same node (mem_nodes_of_member cell child node member below)

theorem forestAmend_congr (target : CellId) (left right : Cell → Cell) (cells : List Cell)
    (same : ∀ node ∈ forestNodes cells, node.id = target → left node = right node) :
    forestAmend target left cells = forestAmend target right cells := by
  rw [forestAmend_eq, forestAmend_eq]
  apply List.map_congr_left
  intro cell member
  exact amend_congr target left right cell fun node below =>
    same node ((mem_forestNodes cells node).mpr ⟨cell, member, below⟩)

/-- Two amendments of one slot are one, if the first keeps the slot. -/
theorem amend_amend (target : CellId) (first second : Cell → Cell) (cell : Cell)
    (keeps : ∀ node : Cell, (first node).id = node.id) :
    (cell.amend target first).amend target second = cell.amend target fun node => second (first node) := by
  induction cell using treeInduction with
  | step cell induction =>
      by_cases here : cell.id = target
      · rw [← here, amend_self, amend_self]
        have same : (first cell).id = cell.id := keeps cell
        rw [← same, amend_self]
      · rw [amend_of_ne target first cell here, amend_of_ne target _ cell here, amend_of_ne]
        · have members : (cell.ring.map (amend target first)).map (amend target second) =
              cell.ring.map (amend target fun node => second (first node)) := by
            have each : ∀ child ∈ cell.ring.members,
                (amend target second ∘ amend target first) child =
                  amend target (fun node => second (first node)) child :=
              fun child member => induction child member
            rw [← Ring.map_congr _ _ cell.ring each]
            simp [Ring.map]
          simp only [members]
        · exact here

theorem forestAmend_forestAmend (target : CellId) (first second : Cell → Cell) (cells : List Cell)
    (keeps : ∀ node : Cell, (first node).id = node.id) :
    forestAmend target second (forestAmend target first cells) =
      forestAmend target (fun node => second (first node)) cells := by
  simp only [forestAmend_eq, List.map_map]
  apply List.map_congr_left
  intro cell _
  exact amend_amend target first second cell keeps

theorem id_amend (target : CellId) (change : Cell → Cell) (cell : Cell)
    (keeps : ∀ node : Cell, (change node).id = node.id) : (cell.amend target change).id = cell.id := by
  rw [amend_eq]
  split
  · exact keeps cell
  · rfl

/-- The nodes that an amendment of `cell` finds outside it, and what becomes of all nodes. -/
def Splits (cells : List Cell) (cell : Cell) (outer : List Cell) : Prop :=
  (forestNodes cells).Perm (cell.nodes ++ outer) ∧
    ∀ change : Cell → Cell,
      (forestNodes (forestAmend cell.id change cells)).Perm
        ((change cell).nodes ++ outer.map (amend cell.id change))

theorem amend_nodes_of_not_mem (target : CellId) (change : Cell → Cell) (cells : List Cell)
    (absent : target ∉ forestIds cells) :
    (forestNodes cells).map (amend target change) = forestNodes cells := by
  have kept : ∀ node ∈ forestNodes cells, node.amend target change = (fun same => same) node := by
    intro node inside
    apply amend_of_not_mem
    intro present
    obtain ⟨below, deeper, same⟩ := (mem_ids node target).mp present
    exact absent ((mem_forestIds cells target).mpr
      ⟨below, forestNodes_subset cells node inside below deeper, same⟩)
  rw [List.map_congr_left kept, List.map_id']

/-- One tree of a forest splits, so the forest does: the trees beside it do not hold the slot. -/
theorem splits_append (before after : List Cell) (top cell : Cell) (outer : List Cell)
    (distinct : (forestIds (before ++ top :: after)).Nodup) (inside : cell ∈ top.nodes)
    (split : Splits [top] cell outer) :
    Splits (before ++ top :: after) cell (outer ++ (forestNodes before ++ forestNodes after)) := by
  have present : cell.id ∈ top.ids := (mem_ids top cell.id).mpr ⟨cell, inside, rfl⟩
  simp only [forestIds_append, forestIds_cons] at distinct
  have beforeAbsent : cell.id ∉ forestIds before := by
    intro member
    exact (List.nodup_append.mp distinct).2.2 cell.id member cell.id
      (List.mem_append_left _ present) rfl
  have afterAbsent : cell.id ∉ forestIds after := by
    intro member
    have tail := (List.nodup_append.mp distinct).2.1
    exact (List.nodup_append.mp tail).2.2 cell.id present cell.id member rfl
  have regroup (left middle right inner : List Cell) (same : middle.Perm inner) :
      (left ++ (middle ++ right)).Perm (inner ++ (left ++ right)) := by
    have swap : (left ++ (middle ++ right)).Perm (middle ++ (left ++ right)) := by
      rw [← List.append_assoc, ← List.append_assoc]
      exact List.perm_append_comm.append_right right
    exact swap.trans (same.append_right _)
  constructor
  · have nodesSplit := split.1
    simp only [forestNodes_eq, List.flatMap_append, List.flatMap_cons, List.flatMap_nil,
      List.append_nil] at nodesSplit ⊢
    rw [← List.append_assoc cell.nodes]
    exact regroup _ _ _ _ nodesSplit
  · intro change
    have nodesSplit := split.2 change
    have amended : forestAmend cell.id change (before ++ top :: after) =
        before ++ top.amend cell.id change :: after := by
      conv_rhs =>
        rw [← forestAmend_of_not_mem cell.id change before beforeAbsent,
          ← forestAmend_of_not_mem cell.id change after afterAbsent]
      simp [forestAmend_eq]
    rw [amended, List.map_append, List.map_append, amend_nodes_of_not_mem _ _ _ beforeAbsent,
      amend_nodes_of_not_mem _ _ _ afterAbsent]
    simp only [forestNodes_eq, forestAmend_eq, List.map_cons, List.map_nil, List.flatMap_append,
      List.flatMap_cons, List.flatMap_nil, List.append_nil] at nodesSplit ⊢
    rw [← List.append_assoc (change cell).nodes]
    exact regroup _ _ _ _ nodesSplit

/-- Without repeated slots, an amended forest consists of the new cell and of what stood outside the old. -/
theorem exists_splits (cells : List Cell) (cell : Cell) (distinct : (forestIds cells).Nodup)
    (inside : cell ∈ forestNodes cells) : ∃ outer, Splits cells cell outer := by
  have tree (top : Cell) : top.ids.Nodup → cell ∈ top.nodes → ∃ outer, Splits [top] cell outer := by
    induction top using treeInduction with
    | step top induction =>
        intro topDistinct present
        rw [nodes_eq] at present
        rcases List.mem_cons.mp present with same | lower
        · subst same
          exact ⟨[], by simp [forestNodes], fun change => by
            simp [forestNodes, forestAmend, amend_self]⟩
        · obtain ⟨child, member, under⟩ := List.mem_flatMap.mp lower
          obtain ⟨before, after, split⟩ := List.append_of_mem member
          rw [ids_eq, List.nodup_cons] at topDistinct
          have childDistinct : child.ids.Nodup := by
            have inner := topDistinct.2
            rw [split] at inner
            simp only [forestIds_append, forestIds_cons] at inner
            exact (List.nodup_append.mp (List.nodup_append.mp inner).2.1).1
          obtain ⟨outer, childSplit⟩ := induction child member childDistinct under
          have membersDistinct := topDistinct.2
          rw [split] at membersDistinct
          -- The siblings beside the child join what stands outside the cell.
          have ringSplit := splits_append before after child cell outer membersDistinct under childSplit
          rw [← split] at ringSplit
          have other : top.id ≠ cell.id := by
            intro same
            apply topDistinct.1
            rw [same, mem_forestIds_iff_mem_ids]
            exact ⟨child, member, (mem_ids child cell.id).mpr ⟨cell, under, rfl⟩⟩
          refine ⟨top :: (outer ++ (forestNodes before ++ forestNodes after)), ?_, ?_⟩
          · have nodesSplit := ringSplit.1
            simp only [forestNodes, List.append_nil]
            rw [nodes_eq top, ← forestNodes_eq]
            exact (nodesSplit.cons top).trans List.perm_middle.symm
          · intro change
            have nodesSplit := ringSplit.2 change
            simp only [forestNodes, forestAmend, List.append_nil, List.map_cons]
            rw [amend_of_ne cell.id change top other, nodes_eq]
            simp only [Ring.members_map]
            rw [← forestAmend_eq, ← forestNodes_eq]
            exact (nodesSplit.cons _).trans List.perm_middle.symm
  obtain ⟨top, member, under⟩ := (mem_forestNodes cells cell).mp inside
  obtain ⟨before, after, split⟩ := List.append_of_mem member
  subst split
  have topDistinct : top.ids.Nodup := by
    simp only [forestIds_append, forestIds_cons] at distinct
    exact (List.nodup_append.mp (List.nodup_append.mp distinct).2.1).1
  obtain ⟨outer, topSplit⟩ := tree top topDistinct under
  exact ⟨_, splits_append before after top cell outer distinct under topSplit⟩

/-- Every slot is that of a tree's top or that of one child of one node. -/
theorem forestIds_perm_children (cells : List Cell) :
    (forestIds cells).Perm
      (cells.map Cell.id ++ (forestNodes cells).flatMap fun node => node.ring.members.map Cell.id) := by
  have tree (top : Cell) :
      top.ids.Perm (top.id :: top.nodes.flatMap fun node => node.ring.members.map Cell.id) := by
    induction top using treeInduction with
    | step top induction =>
        have forest (children : List Cell) (each : ∀ child ∈ children,
            child.ids.Perm (child.id :: child.nodes.flatMap fun node => node.ring.members.map Cell.id)) :
            (forestIds children).Perm (children.map Cell.id ++
              (children.flatMap nodes).flatMap fun node => node.ring.members.map Cell.id) := by
          induction children with
          | nil => exact List.Perm.refl _
          | cons child rest further =>
              have first := each child (by simp)
              have others := further fun other member => each other (by simp [member])
              simp only [forestIds_cons, List.map_cons, List.flatMap_cons, List.flatMap_append]
              refine (first.append others).trans ?_
              rw [List.cons_append, List.cons_append]
              apply List.Perm.cons
              rw [← List.append_assoc, ← List.append_assoc]
              exact List.perm_append_comm.append_right _
        rw [ids_eq, nodes_eq]
        simp only [List.flatMap_cons]
        exact (forest top.ring.members induction).cons top.id
  induction cells with
  | nil => exact List.Perm.refl _
  | cons cell rest induction =>
      simp only [forestIds_cons, forestNodes, List.map_cons, List.flatMap_append]
      refine ((tree cell).append induction).trans ?_
      rw [List.cons_append, List.cons_append]
      apply List.Perm.cons
      rw [← List.append_assoc, ← List.append_assoc]
      exact List.perm_append_comm.append_right _

theorem parent_unique (cells : List Cell) (distinct : (forestIds cells).Nodup) (left right : Cell)
    (leftInside : left ∈ forestNodes cells) (rightInside : right ∈ forestNodes cells) (child : CellId)
    (ofLeft : child ∈ left.ring.members.map Cell.id) (ofRight : child ∈ right.ring.members.map Cell.id) :
    left = right := by
  have spread := (forestIds_perm_children cells).nodup_iff.mp distinct
  have children := (List.nodup_append.mp spread).2.1
  have apart := (List.nodup_flatMap.mp children).2
  rw [List.pairwise_iff_getElem] at apart
  obtain ⟨first, firstBound, atFirst⟩ := List.getElem_of_mem leftInside
  obtain ⟨second, secondBound, atSecond⟩ := List.getElem_of_mem rightInside
  subst atFirst atSecond
  rcases Nat.lt_trichotomy first second with less | same | more
  · exact absurd ofRight (apart first second firstBound secondBound less ofLeft)
  · simp only [same]
  · exact absurd ofLeft (apart second first secondBound firstBound more ofRight)

end Cell

end RingTape
