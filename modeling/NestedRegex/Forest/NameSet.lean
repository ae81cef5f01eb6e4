import NestedRegex.SeqName

namespace NestedRegex

/-- A finite set of sequence names: `id` is in it when its bit is set in the number of its block. -/
structure NameSet where
  blocks : Array Nat

namespace NameSet

/-- The number of places in a block. -/
def blockSize : Nat :=
  1024

def empty : NameSet :=
  ⟨#[]⟩

def contains (s : NameSet) (id : SeqName) : Bool :=
  (s.blocks[id.index / blockSize]?.getD 0).testBit (id.index % blockSize)

/-- The set with blocks enough for a place. -/
def withBlock (s : NameSet) (block : Nat) : NameSet :=
  ⟨s.blocks ++ Array.replicate (block + 1 - s.blocks.size) 0⟩

def insert (s : NameSet) (id : SeqName) : NameSet :=
  let block := id.index / blockSize
  ⟨(s.withBlock block).blocks.modify block (· ||| 1 <<< (id.index % blockSize))⟩

instance : Membership SeqName NameSet := ⟨fun s id => s.contains id = true⟩

instance (s : NameSet) (id : SeqName) : Decidable (id ∈ s) :=
  inferInstanceAs (Decidable (s.contains id = true))

theorem mem_iff {s : NameSet} {id : SeqName} : id ∈ s ↔ s.contains id = true := .rfl

@[simp] theorem not_mem_empty (id : SeqName) : id ∉ empty := by
  simp [mem_iff, contains, empty]

theorem lt_size_withBlock (s : NameSet) (block : Nat) :
    block < (s.withBlock block).blocks.size := by
  simp only [withBlock, Array.size_append, Array.size_replicate]
  omega

/-- New blocks are empty. -/
theorem getD_withBlock (s : NameSet) (block i : Nat) :
    (s.withBlock block).blocks[i]?.getD 0 = s.blocks[i]?.getD 0 := by
  by_cases h : i < s.blocks.size
  · simp [withBlock, Array.getElem?_append_left h]
  · rw [withBlock, Array.getElem?_append_right (Nat.le_of_not_lt h), Array.getElem?_replicate,
      Array.getElem?_eq_none (Nat.le_of_not_lt h)]
    split <;> rfl

theorem getD_insert (s : NameSet) (id : SeqName) (i : Nat) :
    (s.insert id).blocks[i]?.getD 0 =
      if id.index / blockSize = i then
        s.blocks[i]?.getD 0 ||| 1 <<< (id.index % blockSize)
      else s.blocks[i]?.getD 0 := by
  rw [← getD_withBlock s (id.index / blockSize) i, insert, Array.getElem?_modify]
  split
  · next h =>
    subst h
    simp [Array.getElem?_eq_getElem (lt_size_withBlock s _)]
  · rfl

@[simp] theorem mem_insert {s : NameSet} {id other : SeqName} :
    other ∈ s.insert id ↔ other = id ∨ other ∈ s := by
  obtain ⟨i⟩ := id
  obtain ⟨j⟩ := other
  simp only [mem_iff, contains, getD_insert, SeqName.mk.injEq]
  by_cases block : i / blockSize = j / blockSize
  · have same : i % blockSize = j % blockSize ↔ j = i :=
      ⟨fun h => by rw [← Nat.div_add_mod j blockSize, ← block, ← h, Nat.div_add_mod],
        fun h => h ▸ rfl⟩
    simp [block, Nat.one_shiftLeft, Nat.testBit_two_pow, same, or_comm]
  · have apart : j ≠ i := fun h => block (h ▸ rfl)
    simp [block, apart]

end NameSet

end NestedRegex
