import LogStats.NameTree.Basic
import LogStats.Containers.HeapSort

/-! # The top-N reply

`_view_stats_result` of log_view_stats.c sorts a copy of the heap and lists its
first entries. A negative number of entries would be asked of malloc as a huge
one; that is `none`.
-/
namespace LogStats

/-- The fields of the message that this reply sets. -/
structure StatsReply where
  key : String
  name : List CString
  count : List ℤ

/-- The nodes whose names and counts go into the reply. -/
def topNodes (memory : ℕ → ℕ) (t : NameTree) (topn : ℤ) : List ℕ :=
  let copyHeap := heapSort elemCompare t.mem (heapCopy memory t.heap)
  copyHeap.elems.take (min topn copyHeap.len).toNat

def viewStatsResult (memory : ℕ → ℕ) (t : NameTree) (key : String) (topn : ℤ) : Option StatsReply :=
  if min topn t.heap.len < 0 then none
  else
    let nodes := topNodes memory t topn
    some ⟨key,nodes.map t.nameOf,nodes.map fun nv => (t.mem nv).count.toInt32.toInt⟩

theorem topNodes_subperm (memory : ℕ → ℕ) (t : NameTree) (topn : ℤ) :
    (topNodes memory t topn).Subperm t.heap.elems := by
  refine (List.take_sublist _ _).subperm.trans (List.Perm.subperm ?_)
  exact (heapSort_elems _ _ _).trans (List.Perm.of_eq (heapCopy_elems memory t.heap))

theorem topNodes_length (memory : ℕ → ℕ) (t : NameTree) (topn : ℤ) :
    (topNodes memory t topn).length = (min topn t.heap.len).toNat := by
  have hlen : (heapSort elemCompare t.mem (heapCopy memory t.heap)).elems.length = t.heap.len := length_entries _ _
  have hcopy : (heapSort elemCompare t.mem (heapCopy memory t.heap)).len = t.heap.len := rfl
  simp only [topNodes, List.length_take, hlen, hcopy]
  omega

end LogStats
