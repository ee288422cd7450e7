import Mathlib.Algebra.BigOperators.Group.List.Basic
import Mathlib.Algebra.Order.Ring.Nat
import Mathlib.Data.List.Basic
import Mathlib.Order.Basic

/-! # Depth-first search

A search over nodes, some of which bear a mark that is taken once. The loop over
a stack of pending nodes comes to the same log as the recursion over the
children, and the marks in it are those of the nodes that can be reached.
-/

namespace Flpdf.DepthFirst

/-- What happens to a node: it is left out, it is entered, or it is entered once
for its mark. -/
inductive Entry (κ : Type) where
  | skip
  | pass
  | mark (k : κ)
  deriving DecidableEq, Repr

structure Search (α κ : Type) where
  entry : α → Entry κ
  children : α → List α

variable {α β κ : Type} [DecidableEq κ] {s : Search α κ} {log log' : List (κ × α)} {a : α}
  {stack : List α} {fuel depth : ℕ}

namespace Search

/-- The log behind a node, and the nodes that come next. -/
def visit (s : Search α κ) (log : List (κ × α)) (a : α) : List (κ × α) × List α :=
  match s.entry a with
  | .skip => (log, [])
  | .pass => (log, s.children a)
  | .mark k => if k ∈ log.map Prod.fst then (log, []) else (log ++ [(k, a)], s.children a)

/-- The loop over the stack; `none` when the fuel is used up. -/
def loop (s : Search α κ) : ℕ → List (κ × α) → List α → Option (List (κ × α))
  | _, log, [] => some log
  | 0, _, _ :: _ => none
  | fuel + 1, log, a :: stack => loop s fuel (s.visit log a).1 ((s.visit log a).2 ++ stack)

/-- The recursion over the children; `none` when it goes too deep. -/
def walk (s : Search α κ) : ℕ → List (κ × α) → α → Option (List (κ × α))
  | 0, _, _ => none
  | depth + 1, log, a => (s.visit log a).2.foldlM (walk s depth) (s.visit log a).1

/-! ## Loop and recursion -/

omit [DecidableEq κ] in
theorem foldlM_mono {f g : List (κ × α) → α → Option (List (κ × α))}
    (h : ∀ log a r, f log a = some r → g log a = some r) {nodes : List α} {r : List (κ × α)}
    (hf : nodes.foldlM f log = some r) : nodes.foldlM g log = some r := by
  induction nodes generalizing log with
  | nil => exact hf
  | cons a nodes ih =>
    rw [List.foldlM_cons] at hf ⊢
    obtain ⟨log₁, hfirst, hrest⟩ := Option.bind_eq_some_iff.mp hf
    rw [h _ _ _ hfirst]
    exact ih hrest

theorem walk_succ {r : List (κ × α)} (h : s.walk depth log a = some r) :
    s.walk (depth + 1) log a = some r := by
  induction depth generalizing log a r with
  | zero => cases h
  | succ depth ih =>
    rw [walk] at h ⊢
    exact foldlM_mono (fun _ _ _ => ih) h

theorem loop_succ {r : List (κ × α)} (h : s.loop fuel log stack = some r) :
    s.loop (fuel + 1) log stack = some r := by
  induction fuel generalizing log stack with
  | zero =>
    cases stack with
    | nil => exact h
    | cons a stack => cases h
  | succ fuel ih =>
    cases stack with
    | nil => exact h
    | cons a stack =>
      rw [loop] at h ⊢
      exact ih h

theorem loop_mono {r : List (κ × α)} (h : s.loop fuel log stack = some r) (k : ℕ) :
    s.loop (fuel + k) log stack = some r := by
  induction k with
  | zero => exact h
  | succ k ih => exact loop_succ ih

/-- A measure that every visit makes smaller. -/
def Decreases (s : Search α κ) (m : List (κ × α) → List α → ℕ) : Prop :=
  ∀ log a stack, m (s.visit log a).1 ((s.visit log a).2 ++ stack) < m log (a :: stack)

/-- With enough fuel the loop ends with the log of the recursion. -/
theorem loop_eq_walk {m : List (κ × α) → List α → ℕ} (hm : s.Decreases m)
    (hfuel : m log stack ≤ fuel) :
    ∃ r depth, s.loop fuel log stack = some r ∧
      ∀ n, depth ≤ n → stack.foldlM (s.walk n) log = some r := by
  induction fuel generalizing log stack with
  | zero =>
    cases stack with
    | nil => exact ⟨log, 0, rfl, fun _ _ => rfl⟩
    | cons a stack =>
      have hlt := hm log a stack
      omega
  | succ fuel ih =>
    cases stack with
    | nil => exact ⟨log, 0, rfl, fun _ _ => rfl⟩
    | cons a stack =>
      have hlt := hm log a stack
      have hle : m (s.visit log a).1 ((s.visit log a).2 ++ stack) ≤ fuel := by
        omega
      obtain ⟨r, depth, hloop, hwalk⟩ := ih hle
      refine ⟨r, depth + 1, hloop, ?_⟩
      intro n hn
      obtain ⟨n, rfl⟩ := Nat.exists_eq_add_of_le' (Nat.le_trans (Nat.le_add_left 1 depth) hn)
      have hpart := hwalk n (Nat.le_of_succ_le_succ hn)
      rw [List.foldlM_append] at hpart
      obtain ⟨log₁, hchildren, hrest⟩ := Option.bind_eq_some_iff.mp hpart
      rw [List.foldlM_cons, walk, hchildren]
      exact foldlM_mono (fun _ _ _ => walk_succ) hrest

/-! ## The end of the search -/

/-- Weights of the nodes and budgets of the marks: what a node adds to the stack
is paid for by its own weight or by the budget of its mark. -/
structure Weights (s : Search α κ) where
  weight : α → ℕ
  budget : κ → ℕ
  marks : List κ
  weight_pos : ∀ a, 0 < weight a
  children_of_pass : ∀ a, s.entry a = .pass → ((s.children a).map weight).sum < weight a
  children_of_mark : ∀ a k, s.entry a = .mark k → ((s.children a).map weight).sum ≤ budget k
  budget_of_not_mem : ∀ k, k ∉ marks → budget k = 0

namespace Weights

/-- What the marks that are not taken yet may still cost. -/
def unspent (w : s.Weights) (log : List (κ × α)) : ℕ :=
  (w.marks.map fun k => if k ∈ log.map Prod.fst then 0 else w.budget k).sum

def measure (w : s.Weights) (log : List (κ × α)) (stack : List α) : ℕ :=
  w.unspent log + (stack.map w.weight).sum

theorem unspent_append_le (w : s.Weights) {k : κ} (hk : k ∉ log.map Prod.fst) :
    w.unspent (log ++ [(k, a)]) + w.budget k ≤ w.unspent log := by
  have hkeys : (log ++ [(k, a)]).map Prod.fst = log.map Prod.fst ++ [k] := List.map_append
  have hsum : ∀ marks : List κ,
      (marks.map fun j => if j ∈ log.map Prod.fst ++ [k] then 0 else w.budget j).sum +
          (if k ∈ marks then w.budget k else 0) ≤
        (marks.map fun j => if j ∈ log.map Prod.fst then 0 else w.budget j).sum := by
    intro marks
    induction marks with
    | nil => exact Nat.le_refl _
    | cons j marks ih =>
      simp only [List.map_cons, List.sum_cons, List.mem_append, List.mem_cons, List.not_mem_nil,
        or_false]
      simp only [List.mem_append, List.mem_cons, List.not_mem_nil, or_false] at ih
      by_cases hjk : k = j
      · subst hjk
        simp only [hk, or_true, true_or, if_true, if_false]
        split at ih <;> omega
      · have hkj : j ≠ k := Ne.symm hjk
        simp only [hjk, hkj, or_false, false_or]
        omega
  have h := hsum w.marks
  rw [unspent, unspent, hkeys]
  by_cases hmem : k ∈ w.marks
  · rw [if_pos hmem] at h
    exact h
  · rw [if_neg hmem] at h
    rw [w.budget_of_not_mem k hmem]
    exact h

/-- Every visit uses up some of the measure. -/
theorem measure_decreases (w : s.Weights) : s.Decreases w.measure := by
  intro log a stack
  have hpos := w.weight_pos a
  simp only [measure, List.map_append, List.sum_append, List.map_cons, List.sum_cons]
  rw [visit]
  cases hentry : s.entry a with
  | skip =>
    simp only [List.map_nil, List.sum_nil]
    omega
  | pass =>
    have hchildren := w.children_of_pass a hentry
    simp only
    omega
  | mark k =>
    have hchildren := w.children_of_mark a k hentry
    by_cases hk : k ∈ log.map Prod.fst
    · simp only [hk, if_true, List.map_nil, List.sum_nil]
      omega
    · have hspent := w.unspent_append_le hk (a := a)
      simp only [hk, if_false]
      omega

end Weights

/-! ## What is reached -/

/-- The nodes to which the children lead, through nodes that are entered. -/
inductive Reached (s : Search α κ) (roots : List α) : α → Prop
  | root {b : α} (hb : b ∈ roots) : Reached s roots b
  | child {b c : α} (hb : Reached s roots b) (hentry : s.entry b ≠ .skip)
    (hc : c ∈ s.children b) : Reached s roots c

/-- Nodes with the same mark have the same children. -/
def Coherent (s : Search α κ) : Prop :=
  ∀ a b k, s.entry a = .mark k → s.entry b = .mark k → s.children a = s.children b

theorem mem_visit {e : κ × α} (h : e ∈ (s.visit log a).1) :
    e ∈ log ∨ e.2 = a ∧ s.entry a = .mark e.1 := by
  rw [visit] at h
  cases hentry : s.entry a with
  | skip => exact .inl (by simpa only [hentry] using h)
  | pass => exact .inl (by simpa only [hentry] using h)
  | mark k =>
    simp only [hentry] at h
    split at h
    · exact .inl h
    · rcases List.mem_append.mp h with h | h
      · exact .inl h
      · rw [List.mem_singleton.mp h]
        exact .inr ⟨rfl, rfl⟩

theorem mem_visit_children {c : α} (h : c ∈ (s.visit log a).2) :
    s.entry a ≠ .skip ∧ c ∈ s.children a := by
  rw [visit] at h
  cases hentry : s.entry a with
  | skip => simp only [hentry, List.not_mem_nil] at h
  | pass => exact ⟨by simp, by simpa only [hentry] using h⟩
  | mark k =>
    simp only [hentry] at h
    split at h
    · cases h
    · exact ⟨by simp, h⟩

/-- Only marks of reached nodes are logged. -/
theorem loop_sound {roots : List α} (h : s.loop fuel log stack = some log')
    (hlog : ∀ e ∈ log, s.Reached roots e.2 ∧ s.entry e.2 = .mark e.1)
    (hstack : ∀ a ∈ stack, s.Reached roots a) :
    ∀ e ∈ log', s.Reached roots e.2 ∧ s.entry e.2 = .mark e.1 := by
  induction fuel generalizing log stack with
  | zero =>
    cases stack with
    | nil =>
      cases h
      exact hlog
    | cons a stack => cases h
  | succ fuel ih =>
    cases stack with
    | nil =>
      cases h
      exact hlog
    | cons a stack =>
      have ha := hstack a List.mem_cons_self
      apply ih h
      · intro e he
        rcases mem_visit he with he | ⟨rfl, hentry⟩
        · exact hlog e he
        · exact ⟨ha, hentry⟩
      · intro c hc
        rcases List.mem_append.mp hc with hc | hc
        · obtain ⟨hentry, hmem⟩ := mem_visit_children hc
          exact .child ha hentry hmem
        · exact hstack c (List.mem_cons_of_mem _ hc)

theorem nodup_visit (h : (log.map Prod.fst).Nodup) (a : α) :
    ((s.visit log a).1.map Prod.fst).Nodup := by
  rw [visit]
  cases s.entry a with
  | skip => exact h
  | pass => exact h
  | mark k =>
    dsimp only
    split
    · exact h
    · rename_i hk
      rw [List.map_append, List.nodup_append]
      refine ⟨h, by simp, ?_⟩
      rintro j hj _ hk' rfl
      rw [List.mem_singleton.mp hk'] at hj
      exact hk hj

/-- Every mark is logged once. -/
theorem nodup_loop (hrun : s.loop fuel log stack = some log') (h : (log.map Prod.fst).Nodup) :
    (log'.map Prod.fst).Nodup := by
  induction fuel generalizing log stack with
  | zero =>
    cases stack with
    | nil =>
      cases hrun
      exact h
    | cons a stack => cases hrun
  | succ fuel ih =>
    cases stack with
    | nil =>
      cases hrun
      exact h
    | cons a stack => exact ih hrun (nodup_visit h a)

/-- The handled nodes: their marks are logged, and their children are handled or
on the stack. -/
structure Handled (s : Search α κ) (log : List (κ × α)) (stack : List α) (done : α → Prop) :
    Prop where
  logged : ∀ a k, done a → s.entry a = .mark k → k ∈ log.map Prod.fst
  handled : ∀ e ∈ log, done e.2 ∧ s.entry e.2 = .mark e.1
  children : ∀ a c, done a → s.entry a ≠ .skip → c ∈ s.children a → done c ∨ c ∈ stack

theorem Handled.visit {done : α → Prop} (h : s.Handled log (a :: stack) done)
    (hcoherent : s.Coherent) :
    s.Handled (s.visit log a).1 ((s.visit log a).2 ++ stack) fun b => done b ∨ b = a := by
  have hold : ∀ b c, done b → s.entry b ≠ .skip → c ∈ s.children b →
      (done c ∨ c = a) ∨ c ∈ stack := by
    intro b c hb hentry hc
    rcases h.children b c hb hentry hc with hdone | hstack
    · exact .inl (.inl hdone)
    · rcases List.mem_cons.mp hstack with heq | htail
      · exact .inl (.inr heq)
      · exact .inr htail
  have hkeys : ∀ k, k ∈ log.map Prod.fst → k ∈ (s.visit log a).1.map Prod.fst := by
    intro k hk
    rw [Search.visit]
    cases hentry : s.entry a with
    | skip => exact hk
    | pass => exact hk
    | mark j =>
      simp only
      split
      · exact hk
      · rw [List.map_append]
        exact List.mem_append_left _ hk
  constructor
  · rintro b k (hb | rfl) hentry
    · exact hkeys k (h.logged b k hb hentry)
    · by_cases hk : k ∈ log.map Prod.fst
      · exact hkeys k hk
      · rw [Search.visit, hentry]
        simp only [hk, if_false, List.map_append]
        exact List.mem_append_right _ List.mem_cons_self
  · intro e he
    rcases mem_visit he with he | ⟨heq, hentry⟩
    · exact ⟨.inl (h.handled e he).1, (h.handled e he).2⟩
    · exact ⟨.inr heq, heq ▸ hentry⟩
  · rintro b c (hb | rfl) hentry hc
    · rcases hold b c hb hentry hc with hdone | hstack
      · exact .inl hdone
      · exact .inr (List.mem_append_right _ hstack)
    · cases hmark : s.entry b with
      | skip => exact absurd hmark hentry
      | pass =>
        rw [Search.visit, hmark]
        exact .inr (List.mem_append_left _ hc)
      | mark k =>
        by_cases hk : k ∈ log.map Prod.fst
        · -- the node that took the mark is handled and has the same children
          obtain ⟨e, he, rfl⟩ := List.mem_map.mp hk
          obtain ⟨hdone, hother⟩ := h.handled e he
          rw [hcoherent b e.2 e.1 hmark hother] at hc
          have hskip : s.entry e.2 ≠ .skip := by
            rw [hother]
            simp
          rcases hold e.2 c hdone hskip hc with hdone | hstack
          · exact .inl hdone
          · exact .inr (List.mem_append_right _ hstack)
        · rw [Search.visit, hmark]
          simp only [hk, if_false]
          exact .inr (List.mem_append_left _ hc)

theorem loop_handled (hcoherent : s.Coherent) {done : α → Prop}
    (hrun : s.loop fuel log stack = some log') (h : s.Handled log stack done) :
    ∃ all : α → Prop, (∀ a, done a ∨ a ∈ stack → all a) ∧ s.Handled log' [] all := by
  induction fuel generalizing log stack done with
  | zero =>
    cases stack with
    | nil =>
      cases hrun
      exact ⟨done, fun a ha => ha.elim id (fun h => absurd h List.not_mem_nil), h⟩
    | cons a stack => cases hrun
  | succ fuel ih =>
    cases stack with
    | nil =>
      cases hrun
      exact ⟨done, fun a ha => ha.elim id (fun h => absurd h List.not_mem_nil), h⟩
    | cons a stack =>
      obtain ⟨all, hall, hhandled⟩ := ih hrun (h.visit hcoherent)
      refine ⟨all, ?_, hhandled⟩
      rintro b (hb | hb)
      · exact hall b (.inl (.inl hb))
      · rcases List.mem_cons.mp hb with heq | htail
        · exact hall b (.inl (.inr heq))
        · exact hall b (.inr (List.mem_append_right _ htail))

/-- A finished search has logged the marks of the reached nodes and no others. -/
theorem mem_loop_iff (hcoherent : s.Coherent) {roots : List α}
    (hrun : s.loop fuel [] roots = some log) {k : κ} :
    k ∈ log.map Prod.fst ↔ ∃ a, s.Reached roots a ∧ s.entry a = .mark k := by
  constructor
  · intro hk
    obtain ⟨e, he, rfl⟩ := List.mem_map.mp hk
    exact ⟨e.2, loop_sound hrun (fun _ h => absurd h List.not_mem_nil)
      (fun _ h => .root h) e he⟩
  · rintro ⟨a, hreached, hentry⟩
    have hstart : s.Handled [] roots fun _ => False :=
      ⟨fun _ _ h => h.elim, fun _ h => absurd h List.not_mem_nil, fun _ _ h => h.elim⟩
    obtain ⟨all, hroots, hall⟩ := loop_handled hcoherent hrun hstart
    have hclosed : ∀ b, s.Reached roots b → all b := by
      intro b hb
      induction hb with
      | root h => exact hroots _ (.inr h)
      | child _ hskip hc ih =>
        exact (hall.children _ _ ih hskip hc).elim id fun h => absurd h List.not_mem_nil
    exact hall.logged a k (hclosed a hreached) hentry

/-! ## The nodes that are entered, in order -/

section Progress

omit [DecidableEq κ]

variable [DecidableEq α] {root : α} {entered nodes : List α} {c : α} {k : κ}

/-- A node that is entered without a mark stands in one place. -/
structure Embedded (s : Search α κ) (root : α) : Prop where
  root_only : s.entry root = .pass → ∀ b, s.Reached [root] b → root ∉ s.children b
  parent : ∀ a b c, s.entry a = .pass → s.Reached [root] b → s.Reached [root] c →
    a ∈ s.children b → a ∈ s.children c → b = c
  once : ∀ a b, s.entry a = .pass → s.Reached [root] b → (s.children b).count a ≤ 1

/-- How often a node stands below others. -/
def places (s : Search α κ) (nodes : List α) (a : α) : ℕ :=
  (nodes.map fun b => (s.children b).count a).sum

@[simp] theorem places_nil : s.places [] a = 0 := rfl

@[simp] theorem places_cons :
    s.places (c :: nodes) a = (s.children c).count a + s.places nodes a := rfl

@[simp] theorem places_append (nodes' : List α) :
    s.places (nodes ++ nodes') a = s.places nodes a + s.places nodes' a := by
  simp [places]

theorem places_eq_zero (h : ∀ b ∈ nodes, a ∉ s.children b) : s.places nodes a = 0 := by
  induction nodes with
  | nil => rfl
  | cons b nodes ih =>
    rw [places_cons, List.count_eq_zero_of_not_mem (h b List.mem_cons_self),
      ih fun c hc => h c (List.mem_cons_of_mem _ hc)]

theorem Embedded.places_le (h : s.Embedded root) (hentry : s.entry a = .pass)
    (hnodup : nodes.Nodup) (hreached : ∀ b ∈ nodes, s.Reached [root] b) :
    [root].count a + s.places nodes a ≤ 1 := by
  by_cases hroot : root = a
  · subst hroot
    rw [places_eq_zero fun b hb => h.root_only hentry b (hreached b hb)]
    simp
  · rw [List.count_eq_zero_of_not_mem (by simpa using Ne.symm hroot), Nat.zero_add]
    induction nodes with
    | nil => exact Nat.zero_le _
    | cons b nodes ih =>
      rw [List.nodup_cons] at hnodup
      have hb := hreached b List.mem_cons_self
      have hrest : ∀ c ∈ nodes, s.Reached [root] c := fun c hc =>
        hreached c (List.mem_cons_of_mem _ hc)
      rw [places_cons]
      by_cases hmem : a ∈ s.children b
      · -- no other node has it below
        have hzero : s.places nodes a = 0 := by
          apply places_eq_zero
          intro c hc hac
          have heq := h.parent a b c hentry hb (hrest c hc) hmem hac
          exact hnodup.1 (heq ▸ hc)
        rw [hzero]
        exact h.once a b hentry hb
      · rw [List.count_eq_zero_of_not_mem hmem, Nat.zero_add]
        exact ih hnodup.2 hrest

/-- The nodes that were entered, and those that are still on the stack. -/
structure Progress (s : Search α κ) (root : α) (entered stack : List α) : Prop where
  nodup : entered.Nodup
  reached : ∀ b ∈ entered ++ stack, s.Reached [root] b
  places_eq : ∀ b, s.entry b = .pass →
    stack.count b + entered.count b = [root].count b + s.places entered b
  settled : ∀ b, b = root ∨ (∃ c ∈ entered, b ∈ s.children c) → s.entry b ≠ .skip →
    b ∈ entered ∨ b ∈ stack

namespace Progress

theorem start : s.Progress root [] [root] where
  nodup := List.nodup_nil
  reached b hb := .root hb
  places_eq b _ := rfl
  settled b hb _ := by
    rcases hb with rfl | ⟨c, hc, -⟩
    · exact .inr List.mem_cons_self
    · cases hc

theorem skip (h : s.Progress root entered (a :: stack)) (hentry : s.entry a = .skip) :
    s.Progress root entered stack where
  nodup := h.nodup
  reached b hb := by
    apply h.reached
    rw [List.mem_append] at hb ⊢
    exact hb.imp_right (List.mem_cons_of_mem a)
  places_eq b hb := by
    have hne : a ≠ b := by
      rintro rfl
      rw [hentry] at hb
      cases hb
    have heq := h.places_eq b hb
    rwa [List.count_cons_of_ne hne] at heq
  settled b hb hskip := by
    refine (h.settled b hb hskip).imp_right fun hstack => ?_
    rcases List.mem_cons.mp hstack with rfl | htail
    · exact absurd hentry hskip
    · exact htail

theorem taken (h : s.Progress root entered (a :: stack)) (hentry : s.entry a = .mark k)
    (hmem : a ∈ entered) : s.Progress root entered stack where
  nodup := h.nodup
  reached b hb := by
    apply h.reached
    rw [List.mem_append] at hb ⊢
    exact hb.imp_right (List.mem_cons_of_mem a)
  places_eq b hb := by
    have hne : a ≠ b := by
      rintro rfl
      rw [hentry] at hb
      cases hb
    have heq := h.places_eq b hb
    rwa [List.count_cons_of_ne hne] at heq
  settled b hb hskip := by
    rcases h.settled b hb hskip with hentered | hstack
    · exact .inl hentered
    · rcases List.mem_cons.mp hstack with rfl | htail
      · exact .inl hmem
      · exact .inr htail

/-- An unmarked node on the stack was not entered before. -/
theorem not_mem_of_pass (h : s.Progress root entered (a :: stack)) (hembedded : s.Embedded root)
    (hentry : s.entry a = .pass) : a ∉ entered := by
  have hle : [root].count a + s.places entered a ≤ 1 :=
    hembedded.places_le hentry h.nodup fun b hb => h.reached b (List.mem_append_left _ hb)
  have heq := h.places_eq a hentry
  rw [List.count_cons_self] at heq
  have hzero : entered.count a = 0 := by
    omega
  exact List.count_eq_zero.mp hzero

theorem enter (h : s.Progress root entered (a :: stack)) (hskip : s.entry a ≠ .skip)
    (hfresh : a ∉ entered) : s.Progress root (entered ++ [a]) (s.children a ++ stack) where
  nodup := by
    rw [List.nodup_append]
    refine ⟨h.nodup, by simp, ?_⟩
    rintro b hb _ hc rfl
    rw [List.mem_singleton.mp hc] at hb
    exact hfresh hb
  reached b hb := by
    have ha : s.Reached [root] a := h.reached a (List.mem_append_right _ List.mem_cons_self)
    simp only [List.mem_append, List.mem_singleton] at hb
    rcases hb with (hb | rfl) | hb | hb
    · exact h.reached b (List.mem_append_left _ hb)
    · exact ha
    · exact .child ha hskip hb
    · exact h.reached b (List.mem_append_right _ (List.mem_cons_of_mem _ hb))
  places_eq b hb := by
    have heq := h.places_eq b hb
    simp only [List.count_append, places_append, places_cons, places_nil]
    rw [List.count_cons] at heq
    rw [List.count_singleton]
    omega
  settled b hb hb' := by
    have hold : b = root ∨ (∃ c ∈ entered, b ∈ s.children c) →
        b ∈ entered ++ [a] ∨ b ∈ s.children a ++ stack := by
      intro hb
      simp only [List.mem_append, List.mem_singleton]
      rcases h.settled b hb hb' with hentered | hstack
      · exact .inl (.inl hentered)
      · rcases List.mem_cons.mp hstack with rfl | htail
        · exact .inl (.inr rfl)
        · exact .inr (.inr htail)
    rcases hb with rfl | ⟨c, hc, hbc⟩
    · exact hold (.inl rfl)
    · rcases List.mem_append.mp hc with hc | hc
      · exact hold (.inr ⟨c, hc, hbc⟩)
      · rw [List.mem_singleton.mp hc] at hbc
        exact .inr (List.mem_append_left _ hbc)

/-- When the stack is empty, all nodes that are reached were entered. -/
theorem complete (h : s.Progress root entered []) (hreached : s.Reached [root] a)
    (hskip : s.entry a ≠ .skip) : a ∈ entered := by
  have hsettled : ∀ b, b = root ∨ (∃ c ∈ entered, b ∈ s.children c) → s.entry b ≠ .skip →
      b ∈ entered := by
    intro b hb hb'
    exact (h.settled b hb hb').resolve_right List.not_mem_nil
  induction hreached with
  | root hb => exact hsettled _ (.inl (List.mem_singleton.mp hb)) hskip
  | child _ hentry hc ih => exact hsettled _ (.inr ⟨_, ih hentry, hc⟩) hskip

/-- No more nodes are entered than there are. -/
theorem length_le (h : s.Progress root entered stack) {all : List α}
    (hall : ∀ b, s.Reached [root] b → b ∈ all) : entered.length ≤ all.length := by
  have hsub : entered ⊆ all := fun b hb => hall b (h.reached b (List.mem_append_left _ hb))
  exact (List.subperm_of_subset h.nodup hsub).length_le

end Progress

end Progress

/-! ## Searches that do the same -/

/-- A map between the nodes of two searches that keeps entries and children. -/
structure Maps (s : Search α κ) (t : Search β κ) (f : α → β) : Prop where
  entry : ∀ a, t.entry (f a) = s.entry a
  children : ∀ a, t.children (f a) = (s.children a).map f

theorem Maps.visit {t : Search β κ} {f : α → β} (h : s.Maps t f) (log : List (κ × α)) (a : α) :
    t.visit (log.map (Prod.map id f)) (f a) =
      ((s.visit log a).1.map (Prod.map id f), (s.visit log a).2.map f) := by
  have hkeys : (log.map (Prod.map id f)).map Prod.fst = log.map Prod.fst := by
    rw [List.map_map]
    rfl
  rw [Search.visit, Search.visit, h.entry, h.children, hkeys]
  cases s.entry a with
  | skip => rfl
  | pass => rfl
  | mark k =>
    simp only
    split
    · rfl
    · rw [List.map_append]
      rfl

theorem Maps.loop {t : Search β κ} {f : α → β} (h : s.Maps t f)
    (hrun : s.loop fuel log stack = some log') :
    t.loop fuel (log.map (Prod.map id f)) (stack.map f) = some (log'.map (Prod.map id f)) := by
  induction fuel generalizing log stack with
  | zero =>
    cases stack with
    | nil =>
      cases hrun
      rfl
    | cons a stack => cases hrun
  | succ fuel ih =>
    cases stack with
    | nil =>
      cases hrun
      rfl
    | cons a stack =>
      rw [List.map_cons, Search.loop, h.visit, ← List.map_append]
      exact ih hrun

end Search

end Flpdf.DepthFirst
