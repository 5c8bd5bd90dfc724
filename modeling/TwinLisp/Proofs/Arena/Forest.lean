import Mathlib.Data.List.Count
import Mathlib.Data.List.Forall2
import Mathlib.Data.List.Perm.Basic
import TwinLisp.Arena.Forest

/-!
The tables of a program in flat form are a forest: one node after the other is put above those that no
node is above yet, with runs of its own behind all others.
-/

namespace TwinLisp

namespace Run

variable {α : Type} {r : Run} {table : Array α}

theorem size_append (table : Array α) (more : List α) :
    (table ++ more).size = table.size + more.length := by
  rw [← Array.length_toList, Array.toList_appendList, List.length_append, Array.length_toList]

theorem entries_eq (r : Run) (table : Array α) :
    r.entries table = (table.toList.drop r.start).take r.length := by
  simp [entries]

/-- A run keeps its entries when the table grows. -/
theorem Inside.entries_append (inside : r.Inside table.size) (more : List α) :
    r.entries (table ++ more) = r.entries table := by
  have before : r.start ≤ table.toList.length := by
    simp only [Inside] at inside
    simp
    omega
  have short : r.length ≤ (table.toList.drop r.start).length := by
    simp only [Inside] at inside
    simp
    omega
  rw [entries_eq, entries_eq, Array.toList_appendList, List.drop_append_of_le_length before,
    List.take_append_of_le_length short]

/-- What is put behind a table are the entries of the next run. -/
theorem entries_last (table : Array α) (more : List α) :
    entries ⟨table.size, more.length⟩ (table ++ more) = more := by
  rw [entries_eq, Array.toList_appendList, ← Array.length_toList, List.drop_left, List.take_length]

/-- Reading a run that lies inside its table cannot fail. -/
theorem Inside.entries? (inside : r.Inside table.size) :
    r.entries? table = some (r.entries table) :=
  if_pos inside

end Run

theorem getElem?_push_cases {nodes : Array Node} {node node' : Node} {id : Nat}
    (found : (nodes.push node)[id]? = some node') :
    nodes[id]? = some node' ∨ id = nodes.size ∧ node' = node := by
  rw [Array.getElem?_push] at found
  split at found
  next last => exact .inr ⟨last, (Option.some.inj found).symm⟩
  next => exact .inl found

/-- A node is added whose run, if it has one, is the next one in the table. -/
theorem Allotted.push {nodes : Array Node} {run? : NodeKind → Option Run} {size : Nat}
    (h : Allotted nodes run? size) {node : Node} {more : Nat}
    (next : ∀ r, run? node.kind = some r → r = ⟨size, more⟩) :
    Allotted (nodes.push node) run? (size + more) where
  inside id n r found has := by
    rcases getElem?_push_cases found with old | ⟨-, rfl⟩
    · exact Nat.le_add_right_of_le (h.inside id n r old has)
    · rw [next r has]
      exact Nat.le_refl _
  apart id id' n n' r s differ found found' has has' := by
    rcases getElem?_push_cases found with old | ⟨last, rfl⟩
    · -- both nodes were there before, or one of them is the new one
      rcases getElem?_push_cases found' with old' | ⟨last', rfl⟩
      · exact h.apart id id' n n' r s differ old old' has has'
      · -- the old run ends before the new one begins
        have inside : r.start + r.length ≤ size := h.inside id n r old has
        rw [next s has']
        intro i _ lt
        simp only
        omega
    · rcases getElem?_push_cases found' with old' | ⟨last', rfl⟩
      · have inside : s.start + s.length ≤ size := h.inside id' n' s old' has'
        rw [next r has]
        intro i
        simp only
        omega
      · omega

namespace Arena

variable {a a' : Arena} {node : Node} {cs : List Nat} {bs : List (LetBinding Nat)}

/-- A node whose runs lie inside the tables keeps its children when the tables grow. -/
theorem below_append (children : a'.children = a.children ++ cs) (bindings : a'.bindings = a.bindings ++ bs)
    (items : ∀ r, node.kind.items? = some r → r.Inside a.children.size)
    (lets : ∀ r, node.kind.bindings? = some r → r.Inside a.bindings.size) :
    a'.below node = a.below node := by
  obtain ⟨kind, span⟩ := node
  cases kind with
  | list run => simp [below, children, (items run rfl).entries_append]
  | letIn binds body =>
    simp [below, children, bindings, (items body rfl).entries_append, (lets binds rfl).entries_append]
  | _ => rfl

end Arena

namespace FlatProgram.Forest

variable {a a' : Arena} {node : Node} {pending ids : List Nat} {cs : List Nat}
  {bs : List (LetBinding Nat)}

/-- One node. It is put above the last nodes that no node is above yet; its runs are new. -/
theorem push (h : Forest ⟨a, pending ++ ids⟩) (nodes : a'.nodes = a.nodes.push node)
    (children : a'.children = a.children ++ cs) (bindings : a'.bindings = a.bindings ++ bs)
    (items : ∀ r, node.kind.items? = some r → r = ⟨a.children.size, cs.length⟩)
    (lets : ∀ r, node.kind.bindings? = some r → r = ⟨a.bindings.size, bs.length⟩)
    (below : a'.below node = ids) : Forest ⟨a', pending ++ [a.nodes.size]⟩ := by
  have kept (id : Nat) (n : Node) (found : a.nodes[id]? = some n) : a'.below n = a.below n :=
    Arena.below_append children bindings (h.items.inside id n · found) (h.bindings.inside id n · found)
  -- one condition of a forest after the other: children before
  -- parents, all nodes referred to once, and runs apart
  constructor
  case descends =>
    intro id n found child mem
    simp only [nodes] at found mem
    rcases getElem?_push_cases found with old | ⟨rfl, rfl⟩
    · rw [kept id n old] at mem
      exact h.descends id n old child mem
    · rw [below] at mem
      -- what was pending is in the tables already
      apply List.mem_range.mp
      apply h.references.mem_iff.mp
      simp [mem]
  case references =>
    have old : a.nodes.toList.flatMap a'.below = a.nodes.toList.flatMap a.below := by
      apply List.flatMap_congr
      intro n mem
      obtain ⟨id, found⟩ := List.mem_iff_getElem?.mp mem
      exact kept id n (by simpa using found)
    have all : a'.nodes.toList.flatMap a'.below = a.nodes.toList.flatMap a.below ++ ids := by
      simp [nodes, old, below]
    -- the children are below a node now, and the node is pending in their place
    have moved : (pending ++ [a.nodes.size] ++ (a.nodes.toList.flatMap a.below ++ ids)).Perm
        (pending ++ ids ++ a.nodes.toList.flatMap a.below ++ [a.nodes.size]) := by
      apply List.perm_iff_count.mpr
      intro id
      simp only [List.count_append]
      omega
    have size : a'.nodes.size = a.nodes.size + 1 := by simp [nodes]
    simp only [all, size, List.range_succ]
    exact moved.trans (h.references.append_right _)
  case items =>
    have size : a'.children.size = a.children.size + cs.length := by
      rw [children, Run.size_append]
    simp only [nodes, size]
    -- the new run begins where the table ended
    exact h.items.push items
  case bindings =>
    have size : a'.bindings.size = a.bindings.size + bs.length := by
      rw [bindings, Run.size_append]
    simp only [nodes, size]
    exact h.bindings.push lets

end FlatProgram.Forest

/-! ### Passes over the tables -/

theorem Run.Inside.skip {r : Run} {size : Nat} (inside : r.Inside size) (n : Nat) :
    (r.skip n).Inside size := by
  simp only [Inside, Run.skip] at inside ⊢
  split
  · exact inside
  · simp only
    omega

theorem Run.mem_entries_skip {α : Type} {r : Run} {n : Nat} {table : Array α} {x : α}
    (mem : x ∈ (r.skip n).entries table) : x ∈ r.entries table := by
  rw [entries_eq] at mem ⊢
  simp only [Run.skip] at mem
  split at mem
  · simp at mem
  · have rest : (table.toList.drop (r.start + n)).take (r.length - n)
        = ((table.toList.drop r.start).take r.length).drop n := by
      rw [List.drop_take, List.drop_drop]
    simp only [rest] at mem
    exact List.mem_of_mem_drop mem

theorem Arena.mem_below_of_items {a : Arena} {node : Node} {r : Run} {child : Nat}
    (has : node.kind.items? = some r) (mem : child ∈ r.entries a.children) : child ∈ a.below node := by
  obtain ⟨kind, span⟩ := node
  cases kind with
  | list items =>
    cases has
    exact mem
  | letIn bindings body =>
    cases has
    exact List.mem_append_right _ mem
  | _ => cases has

theorem Arena.mem_below_of_bindings {a : Arena} {node : Node} {r : Run} {b : LetBinding Nat}
    (has : node.kind.bindings? = some r) (mem : b ∈ r.entries a.bindings) :
    b.init ∈ a.below node := by
  obtain ⟨kind, span⟩ := node
  cases kind with
  | letIn bindings body =>
    cases has
    exact List.mem_append_left _ (List.mem_map_of_mem mem)
  | _ => cases has

namespace FlatProgram

variable {p : FlatProgram}

/-- What a pass may come by: it is there, and so is what is found at it. -/
def Safe (p : FlatProgram) : Reference → Prop
  | .node id => id < p.arena.nodes.size
  | .items r => r.Inside p.arena.children.size ∧
      ∀ id ∈ r.entries p.arena.children, id < p.arena.nodes.size
  | .bindings r => r.Inside p.arena.bindings.size ∧
      ∀ b ∈ r.entries p.arena.bindings, b.init < p.arena.nodes.size

namespace Forest

variable (h : p.Forest)

include h

/-- A child is a node of the tables: it is referred to, and nothing else is. -/
theorem lt_of_below {id child : Nat} {node : Node} (found : p.arena.nodes[id]? = some node)
    (mem : child ∈ p.arena.below node) : child < p.arena.nodes.size := by
  have inside : id < p.arena.nodes.size := (Array.getElem?_eq_some_iff.mp found).1
  have before := h.descends id node found child mem
  omega

/-- By induction on how a pass has come by what it looks up. -/
theorem safe_of_reaches {ref : Reference} (reached : p.Reaches ref) : p.Safe ref := by
  -- the ways to come by a reference; what is below a node is in the tables
  induction reached with
  | root mem =>
    apply List.mem_range.mp
    apply h.references.mem_iff.mp
    exact List.mem_append_left _ mem
  | datum _ found _ => exact h.lt_of_below found (List.mem_singleton_self _)
  | items _ found has _ =>
    exact ⟨h.items.inside _ _ _ found has, fun child mem =>
      h.lt_of_below found (Arena.mem_below_of_items has mem)⟩
  | bindings _ found has _ =>
    exact ⟨h.bindings.inside _ _ _ found has, fun b mem =>
      h.lt_of_below found (Arena.mem_below_of_bindings has mem)⟩
  | skip _ n ih => exact ⟨ih.1.skip n, fun child mem => ih.2 child (Run.mem_entries_skip mem)⟩
  | item _ found mem ih =>
    -- the run is inside, so what is found are its entries
    rw [ih.1.entries?] at found
    cases found
    exact ih.2 _ mem
  | init _ found mem ih =>
    rw [ih.1.entries?] at found
    cases found
    exact ih.2 _ mem

/-- No look-up of a pass over a forest fails. -/
theorem resolves_of_reaches {ref : Reference} (reached : p.Reaches ref) : ref.Resolves p.arena := by
  have safe := h.safe_of_reaches reached
  cases ref with
  | node id =>
    have inside : id < p.arena.nodes.size := safe
    simpa [Reference.Resolves] using inside
  | items r => simp [Reference.Resolves, safe.1.entries?]
  | bindings r => simp [Reference.Resolves, safe.1.entries?]

end Forest

end FlatProgram

end TwinLisp
