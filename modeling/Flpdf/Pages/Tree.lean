import Flpdf.Handles.Heap

/-!
# Page trees

The tree that the `/Kids` arrays of a document describe: a node with its kids, or
a page. Every position carries the handle that stands there.
-/

namespace Flpdf

inductive PageTree where
  | page (page : Handle)
  | pages (node : Handle) (kids : List PageTree)

namespace PageTree

def handle : PageTree → Handle
  | page p => p
  | pages node _ => node

mutual

def handles : PageTree → List Handle
  | page p => [p]
  | pages node kids => node :: handlesAll kids

def handlesAll : List PageTree → List Handle
  | [] => []
  | tree :: trees => tree.handles ++ handlesAll trees

end

mutual

/-- The pages in document order. -/
def leaves : PageTree → List Handle
  | page p => [p]
  | pages _ kids => leavesAll kids

def leavesAll : List PageTree → List Handle
  | [] => []
  | tree :: trees => tree.leaves ++ leavesAll trees

end

mutual

def nodes : PageTree → List Handle
  | page _ => []
  | pages node kids => node :: nodesAll kids

def nodesAll : List PageTree → List Handle
  | [] => []
  | tree :: trees => tree.nodes ++ nodesAll trees

end

mutual

/-- The length of the longest path, in nodes and pages. -/
def height : PageTree → ℕ
  | page _ => 1
  | pages _ kids => heightAll kids + 1

def heightAll : List PageTree → ℕ
  | [] => 0
  | tree :: trees => max tree.height (heightAll trees)

end

mutual

/-- Every node with each of its kids. -/
def edges : PageTree → List (Handle × Handle)
  | page _ => []
  | pages node kids => edgesAll node kids

def edgesAll (node : Handle) : List PageTree → List (Handle × Handle)
  | [] => []
  | tree :: trees => (node, tree.handle) :: tree.edges ++ edgesAll node trees

end

mutual

def subtrees : PageTree → List PageTree
  | page p => [page p]
  | pages node kids => pages node kids :: subtreesAll kids

def subtreesAll : List PageTree → List PageTree
  | [] => []
  | tree :: trees => tree.subtrees ++ subtreesAll trees

end

@[simp] theorem leavesAll_singleton (tree : PageTree) : leavesAll [tree] = tree.leaves := by
  rw [leavesAll, leavesAll, List.append_nil]

@[simp] theorem nodesAll_singleton (tree : PageTree) : nodesAll [tree] = tree.nodes := by
  rw [nodesAll, nodesAll, List.append_nil]

@[simp] theorem leavesAll_append (a b : List PageTree) :
    leavesAll (a ++ b) = leavesAll a ++ leavesAll b := by
  induction a with
  | nil => rfl
  | cons tree trees ih => rw [List.cons_append, leavesAll, leavesAll, ih, List.append_assoc]

@[simp] theorem nodesAll_append (a b : List PageTree) :
    nodesAll (a ++ b) = nodesAll a ++ nodesAll b := by
  induction a with
  | nil => rfl
  | cons tree trees ih => rw [List.cons_append, nodesAll, nodesAll, ih, List.append_assoc]

@[simp] theorem subtreesAll_append (a b : List PageTree) :
    subtreesAll (a ++ b) = subtreesAll a ++ subtreesAll b := by
  induction a with
  | nil => rfl
  | cons tree trees ih => rw [List.cons_append, subtreesAll, subtreesAll, ih, List.append_assoc]

theorem subtreesAll_map_page (pages : List Handle) :
    subtreesAll (pages.map page) = pages.map page := by
  induction pages with
  | nil => rfl
  | cons p pages ih => rw [List.map_cons, subtreesAll, subtrees, ih, List.singleton_append]

@[simp] theorem edgesAll_append (node : Handle) (a b : List PageTree) :
    edgesAll node (a ++ b) = edgesAll node a ++ edgesAll node b := by
  induction a with
  | nil => rfl
  | cons tree trees ih =>
    simp only [List.cons_append, edgesAll, ih, List.append_assoc]

@[simp] theorem leavesAll_map_page (pages : List Handle) : leavesAll (pages.map page) = pages := by
  induction pages with
  | nil => rfl
  | cons p pages ih => rw [List.map_cons, leavesAll, leaves, ih, List.singleton_append]

@[simp] theorem nodesAll_map_page (pages : List Handle) : nodesAll (pages.map page) = [] := by
  induction pages with
  | nil => rfl
  | cons p pages ih => rw [List.map_cons, nodesAll, nodes, ih, List.nil_append]

theorem edgesAll_map_page (node : Handle) (pages : List Handle) :
    edgesAll node (pages.map page) = pages.map fun p => (node, p) := by
  induction pages with
  | nil => rfl
  | cons p pages ih => rw [List.map_cons, edgesAll, edges, ih, List.map_cons, handle]; rfl

theorem height_le_heightAll {tree : PageTree} : ∀ {trees : List PageTree}, tree ∈ trees →
    tree.height ≤ heightAll trees
  | first :: trees, h => by
    rw [heightAll]
    rcases List.mem_cons.mp h with rfl | h
    · exact Nat.le_max_left _ _
    · exact (height_le_heightAll h).trans (Nat.le_max_right _ _)

theorem handle_mem_handles (tree : PageTree) : tree.handle ∈ tree.handles := by
  cases tree with
  | page p => exact List.mem_cons_self
  | pages node kids => exact List.mem_cons_self

end PageTree

end Flpdf
