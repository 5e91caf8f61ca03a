import Mathlib.Algebra.GroupWithZero.Nat
import Mathlib.Algebra.Order.BigOperators.Group.List
import Mathlib.Algebra.Order.Ring.Nat
import Mathlib.Data.List.Perm.Subperm
import Mathlib.Order.Bounds.Basic
import Mathlib.Tactic.Ring
import Raeva.Resolver.Scopes

/-!
# The numbering of conflict groups

`ConflictOrder::of` walks the graph depth first and records for each node the depth
at which the walk found it, which later findings pull up.  At the end the depths are
those of a breadth-first walk.
-/

namespace Raeva

open List

namespace Graph

/-- What petgraph keeps of every graph: its edges join its nodes, and the nodes can be
counted. -/
structure IsIndexed (g : Graph) : Prop where
  root : root < g.nodes.length
  source : ∀ link ∈ g.links, link.source < g.nodes.length
  target : ∀ link ∈ g.links, link.target < g.nodes.length
  size : g.nodes.length < usizeMax

def Path (g : Graph) : ℕ → ℕ → Prop
  | 0, v => v = root
  | k + 1, v => ∃ u, Path g k u ∧ g.Steps u v

theorem transGen_iff_path {g : Graph} {v : ℕ} :
    Relation.TransGen g.Steps root v ↔ ∃ k, g.Path (k + 1) v := by
  constructor
  · intro h
    induction h with
    | single hstep => exact ⟨0, root, rfl, hstep⟩
    | tail _ hstep ih =>
      obtain ⟨k, hk⟩ := ih
      exact ⟨k + 1, _, hk, hstep⟩
  · rintro ⟨k, hk⟩
    induction k generalizing v with
    | zero =>
      obtain ⟨u, rfl, hstep⟩ := hk
      exact .single hstep
    | succ k ih =>
      obtain ⟨u, hu, hstep⟩ := hk
      exact .tail (ih hu) hstep

end Graph

namespace ConflictOrder

/-! ## Pulling up -/

def PullsUp (this : ConflictOrder) (lift : List (ℕ × ℕ)) (result : ConflictOrder) : Prop :=
  Runs (fun s next => pullStep s = next) (this, lift) result

/-- The recorded depths can only be lowered so often. -/
def pullVariant (n : ℕ) (s : ConflictOrder × List (ℕ × ℕ)) : ℕ :=
  s.2.length + (n + 1) * (s.1.order.map s.1.depth).sum

/-- The nodes waiting are listed ones, each with at most `n` nodes below it. -/
structure Pullable (n : ℕ) (s : ConflictOrder × List (ℕ × ℕ)) : Prop where
  children : ∀ u, (s.1.children u).length ≤ n
  closed : ∀ u, ∀ v ∈ s.1.children u, v ∈ s.1.order
  lift : ∀ entry ∈ s.2, entry.1 ∈ s.1.order

section PullStep

variable {n : ℕ} {this : ConflictOrder} {node depth : ℕ} {lift : List (ℕ × ℕ)}

/-- A round takes the first entry, and lowers its node if that makes it less deep. -/
theorem pullStep_eq_inr {s' : ConflictOrder × List (ℕ × ℕ)} (h : pullStep (this, lift) = .inr s') :
    ∃ node depth rest, lift = (node, depth) :: rest ∧
      (depth < this.depth node ∧ s' = this.lifted node depth rest ∨
        ¬depth < this.depth node ∧ s' = (this, rest)) := by
  cases lift with
  | nil => cases h
  | cons entry rest =>
    refine ⟨entry.1, entry.2, rest, rfl, ?_⟩
    rw [pullStep] at h
    split at h <;> cases h
    · exact .inl ⟨‹_›, rfl⟩
    · exact .inr ⟨‹_›, rfl⟩

@[simp] theorem depth_lifted :
    (this.lifted node depth lift).1.depth = Function.update this.depth node depth := rfl

theorem mem_lifted {entry : ℕ × ℕ} :
    entry ∈ (this.lifted node depth lift).2 ↔
      (entry.1 ∈ this.children node ∧ entry.2 = depth + 1) ∨ entry ∈ lift := by
  obtain ⟨child, d⟩ := entry
  simp [lifted, eq_comm]

theorem Pullable.lift_children (h : Pullable n (this, (node, depth) :: lift)) :
    Pullable n (this.lifted node depth lift) := by
  refine ⟨h.children, h.closed, ?_⟩
  intro entry hentry
  rcases mem_lifted.mp hentry with ⟨hentry, -⟩ | hentry
  · exact h.closed node entry.1 hentry
  · exact h.lift entry (mem_cons_of_mem _ hentry)

theorem pullVariant_lift (h : Pullable n (this, (node, depth) :: lift))
    (hlt : depth < this.depth node) :
    pullVariant n (this.lifted node depth lift) < pullVariant n (this, (node, depth) :: lift) := by
  have hnode : node ∈ this.order := h.lift _ mem_cons_self
  have hsum : (this.order.map (Function.update this.depth node depth)).sum <
      (this.order.map this.depth).sum := by
    apply sum_lt_sum
    · intro v _
      by_cases hv : v = node
      · subst hv
        simpa using hlt.le
      · simp [hv]
    · exact ⟨node, hnode, by simpa using hlt⟩
  have hscaled := Nat.mul_le_mul_left (n + 1) (Nat.succ_le_of_lt hsum)
  rw [Nat.mul_succ] at hscaled
  have hchildren : (this.children node).length ≤ n := h.children node
  simp only [pullVariant, lifted, length_append, length_map, length_reverse, length_cons]
  omega

theorem pullsUp_pullUp {fuel : ℕ} (h : Pullable n (this, lift))
    (hfuel : pullVariant n (this, lift) < fuel) : PullsUp this lift (this.pullUp fuel lift) := by
  refine runs_loop Prod.fst (Pullable n) (pullVariant n) ?_ h hfuel
  rintro ⟨this, lift⟩ s' hs hstep
  obtain ⟨node, depth, rest, rfl, ⟨hlt, rfl⟩ | ⟨-, rfl⟩⟩ := pullStep_eq_inr hstep
  · exact ⟨hs.lift_children, pullVariant_lift hs hlt⟩
  · refine ⟨⟨hs.children, hs.closed, ?_⟩, ?_⟩
    · intro entry hentry
      exact hs.lift entry (mem_cons_of_mem _ hentry)
    · simp only [pullVariant, length_cons]
      omega

end PullStep

/-- What holds while `pull_up` lowers depths of `before`: every depth and every entry is
one that `D` allows, no depth is lowered below `low`, and an edge that spans more than one
level has its lower end waiting. -/
structure Pulling (D : ℕ → ℕ → Prop) (low : ℕ) (before : ConflictOrder) (first : List (ℕ × ℕ))
    (s : ConflictOrder × List (ℕ × ℕ)) : Prop where
  frame : s.1 = { before with depth := s.1.depth }
  le : ∀ v, s.1.depth v ≤ before.depth v
  high : ∀ v, s.1.depth v = before.depth v ∨ low ≤ s.1.depth v
  depth : ∀ v ∈ before.order, D v (s.1.depth v)
  lift : ∀ entry ∈ s.2, low ≤ entry.2 ∧ D entry.1 entry.2
  relaxed : ∀ u, ∀ v ∈ before.children u,
    s.1.depth v ≤ s.1.depth u + 1 ∨ ∃ d ≤ s.1.depth u + 1, (v, d) ∈ s.2
  first : ∀ entry ∈ first, s.1.depth entry.1 ≤ entry.2 ∨ ∃ d ≤ entry.2, (entry.1, d) ∈ s.2

section Pulling

variable {D : ℕ → ℕ → Prop} {low : ℕ} {before : ConflictOrder} {first : List (ℕ × ℕ)}
  {this : ConflictOrder} {node depth : ℕ} {lift : List (ℕ × ℕ)}

theorem Pulling.keep (h : Pulling D low before first (this, (node, depth) :: lift))
    (hlt : ¬depth < this.depth node) : Pulling D low before first (this, lift) := by
  have hpending : ∀ {v bound : ℕ}, (this.depth v ≤ bound ∨
      ∃ d ≤ bound, (v, d) ∈ (node, depth) :: lift) →
        this.depth v ≤ bound ∨ ∃ d ≤ bound, (v, d) ∈ lift := by
    rintro v bound (hle | ⟨d, hd, hmem⟩)
    · exact .inl hle
    rcases mem_cons.mp hmem with heq | hmem
    · cases heq
      left
      omega
    · exact .inr ⟨d, hd, hmem⟩
  refine ⟨h.frame, h.le, h.high, h.depth, ?_, ?_, ?_⟩
  · intro entry hentry
    exact h.lift entry (mem_cons_of_mem _ hentry)
  · intro u v hv
    exact hpending (h.relaxed u v hv)
  · intro entry hentry
    exact hpending (h.first entry hentry)

theorem Pulling.lower (h : Pulling D low before first (this, (node, depth) :: lift))
    (hclosed : ∀ u d, D u d → ∀ v ∈ before.children u, D v (d + 1))
    (hlt : depth < this.depth node) : Pulling D low before first (this.lifted node depth lift) := by
  obtain ⟨hlow, hD⟩ := h.lift _ mem_cons_self
  have hframe : this = { before with depth := this.depth } := h.frame
  have hchildren : this.children = before.children := by rw [hframe]
  have hupdate : ∀ v, Function.update this.depth node depth v ≤ this.depth v := by
    intro v
    by_cases hv : v = node
    · subst hv
      simpa using hlt.le
    · simp [hv]
  have hpending : ∀ {v bound : ℕ}, (this.depth v ≤ bound ∨
      ∃ d ≤ bound, (v, d) ∈ (node, depth) :: lift) →
        Function.update this.depth node depth v ≤ bound ∨
          ∃ d ≤ bound, (v, d) ∈ (this.lifted node depth lift).2 := by
    rintro v bound (hle | ⟨d, hd, hmem⟩)
    · exact .inl ((hupdate v).trans hle)
    rcases mem_cons.mp hmem with heq | hmem
    · cases heq
      left
      simpa using hd
    · exact .inr ⟨d, hd, mem_lifted.mpr (.inr hmem)⟩
  refine ⟨by rw [hframe]; rfl, ?_, ?_, ?_, ?_, ?_, ?_⟩
  · intro v
    exact (hupdate v).trans (h.le v)
  · intro v
    by_cases hv : v = node
    · subst hv
      right
      simpa using hlow
    · simpa [hv] using h.high v
  · intro v hv
    by_cases hnode : v = node
    · subst hnode
      simpa using hD
    · simpa [hnode] using h.depth v hv
  · intro entry hentry
    rcases mem_lifted.mp hentry with ⟨hchild, hd⟩ | hentry
    · rw [hd]
      exact ⟨by omega, hclosed node depth hD entry.1 (hchildren ▸ hchild)⟩
    · exact h.lift entry (mem_cons_of_mem _ hentry)
  · intro u v hv
    by_cases hu : u = node
    · subst hu
      right
      exact ⟨depth + 1, by simp, mem_lifted.mpr (.inl ⟨hchildren ▸ hv, rfl⟩)⟩
    · simpa [hu] using hpending (h.relaxed u v hv)
  · intro entry hentry
    exact hpending (h.first entry hentry)

end Pulling

/-- What `pull_up` leaves: lower depths, none of them below `low`, and no edge that spans
more than one level. -/
theorem PullsUp.pulling {D : ℕ → ℕ → Prop} {low : ℕ} {this result : ConflictOrder}
    {lift : List (ℕ × ℕ)} (h : PullsUp this lift result)
    (hclosed : ∀ u d, D u d → ∀ v ∈ this.children u, D v (d + 1))
    (hstart : Pulling D low this lift (this, lift)) : Pulling D low this lift (result, []) := by
  refine Runs.invariant (Pulling D low this lift)
    (fun result => Pulling D low this lift (result, [])) h ?_ ?_ hstart
  · rintro ⟨this', lift'⟩ s' hs hstep
    obtain ⟨node, depth, rest, rfl, ⟨hlt, rfl⟩ | ⟨hlt, rfl⟩⟩ := pullStep_eq_inr hstep
    · exact hs.lower hclosed hlt
    · exact hs.keep hlt
  · rintro ⟨this', lift'⟩ result hs hstep
    cases lift' with
    | nil =>
      cases hstep
      exact hs
    | cons entry lift' =>
      rw [pullStep] at hstep
      split at hstep <;> cases hstep

/-! ## The record -/

def parents (this : ConflictOrder) (v : ℕ) : List ℕ :=
  this.order.filter fun u => v ∈ this.children u

/-- What holds of the record at every time: the depth of a node is that of a path to it,
and no recorded edge spans more than one level. -/
structure Sound (g : Graph) (this : ConflictOrder) : Prop where
  nodup : this.order.Nodup
  root : Graph.root ∉ this.order
  path : ∀ v ∈ this.order, g.Path (this.depth v) v
  bound : ∀ v ∈ this.order, this.depth v ≤ this.order.length
  children : ∀ u, ∀ v ∈ this.children u, u ∈ this.order ∧ v ∈ this.order ∧ g.Steps u v
  distinct : ∀ u, (this.children u).Nodup
  relaxed : ∀ u, ∀ v ∈ this.children u, this.depth v ≤ this.depth u + 1
  inDegree : ∀ v, this.inDegree v = (this.parents v).length

section Record

variable {g : Graph} {this : ConflictOrder} {node child depth : ℕ}

theorem Path.lt {k v : ℕ} (hg : g.IsIndexed) (h : g.Path k v) : v < g.nodes.length := by
  cases k with
  | zero =>
    obtain rfl : v = Graph.root := h
    exact hg.root
  | succ k =>
    obtain ⟨u, -, link, hlink, -, rfl⟩ := h
    exact hg.target link hlink

theorem Sound.pullable (h : Sound g this) (hchild : child ∈ this.order) :
    Pullable this.order.length (this, [(child, depth)]) := by
  refine ⟨?_, ?_, ?_⟩
  · intro u
    exact (subperm_of_subset (h.distinct u) fun v hv => (h.children u v hv).2.1).length_le
  · intro u v hv
    exact (h.children u v hv).2.1
  · intro entry hentry
    rw [mem_singleton.mp hentry]
    exact hchild

theorem Sound.length_le (h : Sound g this) (hg : g.IsIndexed) :
    this.order.length < g.nodes.length := by
  have hsubset : Graph.root :: this.order ⊆ List.range g.nodes.length := by
    intro v hv
    rcases mem_cons.mp hv with rfl | hv
    · exact mem_range.mpr hg.root
    · exact mem_range.mpr (Path.lt hg (h.path v hv))
  have hnodup : (Graph.root :: this.order).Nodup := nodup_cons.mpr ⟨h.root, h.nodup⟩
  have hlength := (subperm_of_subset hnodup hsubset).length_le
  rwa [length_cons, length_range] at hlength

theorem length_filter_or {l : List ℕ} {a : ℕ} {p : ℕ → Bool} (h : l.Nodup) (ha : a ∈ l)
    (hp : p a = false) : (l.filter fun u => u = a || p u).length = (l.filter p).length + 1 := by
  have hperm := perm_cons_erase ha
  rw [(hperm.filter _).length_eq, (hperm.filter p).length_eq, filter_cons_of_pos (by simp),
    filter_cons_of_neg (by simp [hp]), length_cons]
  congr 2
  apply filter_congr
  intro u hu
  have hne : u ≠ a := (h.mem_erase_iff.mp hu).1
  simp [hne]

theorem mem_numbered {v : ℕ} :
    v ∈ (this.numbered child depth).order ↔ v ∈ this.order ∨ v = child := by
  simp [ConflictOrder.numbered]

theorem depth_numbered_self : (this.numbered child depth).depth child = depth :=
  Function.update_self _ _ _

theorem depth_numbered {v : ℕ} (hchild : child ∉ this.order) (hv : v ∈ this.order) :
    (this.numbered child depth).depth v = this.depth v :=
  Function.update_of_ne (ne_of_mem_of_not_mem hv hchild) _ _

theorem Sound.numbered (h : Sound g this) (hchild : child ∉ this.order) (hroot : child ≠ Graph.root)
    (hpath : g.Path depth child) (hdepth : depth ≤ this.order.length + 1) :
    Sound g (this.numbered child depth) := by
  have hempty : this.children child = [] := by
    apply eq_nil_iff_forall_not_mem.mpr
    intro v hv
    exact hchild (h.children child v hv).1
  refine ⟨?_, ?_, ?_, ?_, ?_, h.distinct, ?_, ?_⟩
  · exact h.nodup.append (nodup_singleton _) (by simpa using hchild)
  · rw [mem_numbered]
    rintro (hmem | heq)
    · exact h.root hmem
    · exact hroot heq.symm
  · intro v hv
    rcases mem_numbered.mp hv with hv | rfl
    · rw [depth_numbered hchild hv]
      exact h.path v hv
    · rw [depth_numbered_self]
      exact hpath
  · intro v hv
    have hlength : (this.numbered child depth).order.length = this.order.length + 1 := by
      simp [ConflictOrder.numbered]
    rw [hlength]
    rcases mem_numbered.mp hv with hv | rfl
    · rw [depth_numbered hchild hv]
      exact (h.bound v hv).trans (Nat.le_succ _)
    · rw [depth_numbered_self]
      exact hdepth
  · intro u v hv
    obtain ⟨hu, hv, hstep⟩ := h.children u v hv
    exact ⟨mem_numbered.mpr (.inl hu), mem_numbered.mpr (.inl hv), hstep⟩
  · intro u v hv
    obtain ⟨hu, hmem, -⟩ := h.children u v hv
    rw [depth_numbered hchild hu, depth_numbered hchild hmem]
    exact h.relaxed u v hv
  · intro v
    change this.inDegree v = ((this.order ++ [child]).filter fun u => v ∈ this.children u).length
    rw [h.inDegree, parents, filter_append]
    simp [hempty]

theorem mem_linked {u v : ℕ} : v ∈ (this.linked node child).children u ↔
    v ∈ this.children u ∨ u = node ∧ v = child := by
  by_cases hu : u = node
  · subst hu
    simp [ConflictOrder.linked]
  · simp [ConflictOrder.linked, hu]

theorem Sound.linked (h : Sound g this) (hnode : node ∈ this.order) (hmem : child ∈ this.order)
    (hstep : g.Steps node child) (hnew : child ∉ this.children node)
    (hdepth : this.depth child ≤ this.depth node + 1) : Sound g (this.linked node child) := by
  refine ⟨h.nodup, h.root, h.path, h.bound, ?_, ?_, ?_, ?_⟩
  · intro u v hv
    rcases mem_linked.mp hv with hv | ⟨rfl, rfl⟩
    · exact h.children u v hv
    · exact ⟨hnode, hmem, hstep⟩
  · intro u
    by_cases hu : u = node
    · subst hu
      have heq : (this.linked u child).children u = this.children u ++ [child] :=
        Function.update_self _ _ _
      rw [heq]
      exact (h.distinct u).append (nodup_singleton _) (by simpa using hnew)
    · have heq : (this.linked node child).children u = this.children u :=
        Function.update_of_ne hu _ _
      rw [heq]
      exact h.distinct u
  · intro u v hv
    rcases mem_linked.mp hv with hv | ⟨rfl, rfl⟩
    · exact h.relaxed u v hv
    · exact hdepth
  · intro v
    by_cases hv : v = child
    · subst hv
      have hcount : (this.linked node v).parents v = this.order.filter
          fun u => u = node || v ∈ this.children u := by
        apply filter_congr
        intro u _
        simp [mem_linked, or_comm]
      have heq : (this.linked node v).inDegree v = this.inDegree v + 1 := Function.update_self _ _ _
      rw [heq, hcount, length_filter_or h.nodup hnode (by simpa using hnew), h.inDegree]
      rfl
    · have hcount : (this.linked node child).parents v = this.parents v := by
        apply filter_congr
        intro u _
        simp [mem_linked, hv]
      have heq : (this.linked node child).inDegree v = this.inDegree v :=
        Function.update_of_ne hv _ _
      rw [hcount, heq]
      exact h.inDegree v

/-- What `pull_up` from a new edge to a listed node does: the record stays sound, and the
depths below that of the edge stay. -/
theorem Sound.pulled {this' : ConflictOrder} (h : Sound g this)
    (hpull : PullsUp this [(child, depth)] this') (hpath : g.Path depth child) :
    Sound g this' ∧ this'.order = this.order ∧ this'.children = this.children ∧
      (∀ v, this'.depth v ≤ this.depth v) ∧ this'.depth child ≤ depth ∧
      ∀ v, this.depth v < depth → this'.depth v = this.depth v := by
  have hclosed : ∀ u d, g.Path d u → ∀ v ∈ this.children u, g.Path (d + 1) v := by
    intro u d hu v hv
    exact ⟨u, hu, (h.children u v hv).2.2⟩
  have hstart : Pulling (fun v d => g.Path d v) depth this [(child, depth)]
      (this, [(child, depth)]) := by
    refine ⟨rfl, fun v => le_rfl, fun v => .inl rfl, h.path, ?_, ?_, ?_⟩
    · intro entry hentry
      rw [mem_singleton.mp hentry]
      exact ⟨le_rfl, hpath⟩
    · intro u v hv
      exact .inl (h.relaxed u v hv)
    · intro entry hentry
      exact .inr ⟨entry.2, le_rfl, hentry⟩
  obtain ⟨hframe, hle, hhigh, hdepth, -, hrelaxed, hfirst⟩ := hpull.pulling hclosed hstart
  obtain ⟨_, depths, _, _⟩ := this'
  cases hframe
  have hlow : ∀ v, this.depth v < depth → depths v = this.depth v := by
    intro v hv
    have hv' : depths v ≤ this.depth v := hle v
    rcases hhigh v with heq | hge
    · exact heq
    · have hge : depth ≤ depths v := hge
      omega
  have hchildDepth : depths child ≤ depth := by
    rcases hfirst _ mem_cons_self with hle | ⟨d, -, hmem⟩
    · exact hle
    · cases hmem
  refine ⟨⟨h.nodup, h.root, hdepth, ?_, h.children, h.distinct, ?_, h.inDegree⟩, rfl, rfl, hle,
    hchildDepth, hlow⟩
  · intro v hv
    exact (hle v).trans (h.bound v hv)
  intro u v hv
  rcases hrelaxed u v hv with hle | ⟨d, -, hmem⟩
  · exact hle
  · cases hmem

end Record

/-! ## The walk -/

/-- Finding `child` below `node`, with `pull_up` run to its end. -/
inductive Finds (w : Walking) (node child depth : ℕ) : Walking → Prop where
  | new : w.number child = usizeMax → Finds w node child depth (Walking.link
        { w with
          number := Function.update w.number child w.this.order.length
          this := w.this.numbered child depth } node child)
  | old {this : ConflictOrder} : w.number child ≠ usizeMax → PullsUp w.this [(child, depth)] this →
      Finds w node child depth (Walking.link { w with this } node child)

inductive WalkStep (g : Graph) :
    Walking × List Frame → Walking ⊕ (Walking × List Frame) → Prop where
  | done {w : Walking} : WalkStep g (w, []) (.inl w)
  | pop {w : Walking} {frame : Frame} {stack : List Frame} : frame.next = [] →
      WalkStep g (w, frame :: stack) (.inr (w, stack))
  | again {w w' : Walking} {frame : Frame} {stack : List Frame} {child : ℕ} {next : List ℕ} :
      frame.next = child :: next → Finds w frame.node child (frame.depth + 1) w' →
      w'.visited child = true →
        WalkStep g (w, frame :: stack) (.inr (w', { frame with next } :: stack))
  | enter {w w' : Walking} {frame : Frame} {stack : List Frame} {child : ℕ} {next : List ℕ} :
      frame.next = child :: next → Finds w frame.node child (frame.depth + 1) w' →
      w'.visited child = false →
      WalkStep g (w, frame :: stack)
        (.inr ({ w' with visited := Function.update w'.visited child true },
          { node := child, depth := frame.depth + 1, next := declared g child } ::
            { frame with next } :: stack))

variable {g : Graph} {w : Walking} {node child depth : ℕ}

theorem find_new (h : w.number child = usizeMax) :
    find g w node child depth = Walking.link
      { w with
        number := Function.update w.number child w.this.order.length
        this := w.this.numbered child depth } node child := by
  rw [find, if_pos h]

theorem find_old (h : w.number child ≠ usizeMax) :
    find g w node child depth = Walking.link
      { w with this := w.this.pullUp ((g.nodes.length + 1) ^ 3) [(child, depth)] } node child := by
  rw [find, if_neg h]

theorem mem_declared {u v : ℕ} : v ∈ declared g u ↔ g.Steps u v := by
  simp [declared, Graph.outgoing, Graph.Steps, and_assoc]

def Recorded (w : Walking) (u v : ℕ) : Prop :=
  if u = Graph.root then v ∈ w.this.order ∧ w.this.depth v ≤ 1 else v ∈ w.this.children u

def Frame.At (this : ConflictOrder) (frame : Frame) : Prop :=
  frame.node = Graph.root ∧ frame.depth = 0 ∨
    frame.node ∈ this.order ∧ this.depth frame.node = frame.depth

/-- What holds during the walk: the edges of the nodes found so far are recorded or wait on
the stack, and the nodes on the stack are deeper from one to the next. -/
structure Walked (g : Graph) (w : Walking) (stack : List Frame) : Prop where
  sound : Sound g w.this
  number : ∀ v, w.number v = usizeMax ↔ v ∉ w.this.order
  visited : ∀ v, w.visited v = true ↔ v = Graph.root ∨ v ∈ w.this.order
  frames : ∀ frame ∈ stack, frame.At w.this
  rising : stack.Pairwise fun top below => below.depth < top.depth
  steps : ∀ frame ∈ stack, ∀ v ∈ frame.next, g.Steps frame.node v
  pending : ∀ u, u = Graph.root ∨ u ∈ w.this.order → ∀ v, g.Steps u v →
    Recorded w u v ∨ ∃ frame ∈ stack, frame.node = u ∧ v ∈ frame.next

section Walk

variable {g : Graph} {w w' : Walking} {frame : Frame} {stack : List Frame} {child : ℕ}
  {next : List ℕ} {depth node v : ℕ} {this : ConflictOrder}

theorem Walked.pop (h : Walked g w (frame :: stack)) (hnext : frame.next = []) :
    Walked g w stack := by
  refine ⟨h.sound, h.number, h.visited, ?_, (pairwise_cons.mp h.rising).2, ?_, ?_⟩
  · intro other hother
    exact h.frames other (mem_cons_of_mem _ hother)
  · intro other hother
    exact h.steps other (mem_cons_of_mem _ hother)
  intro u hu v hv
  rcases h.pending u hu v hv with hrecorded | ⟨other, hother, hnode, hmem⟩
  · exact .inl hrecorded
  rcases mem_cons.mp hother with rfl | hother
  · rw [hnext] at hmem
    cases hmem
  · exact .inr ⟨other, hother, hnode, hmem⟩

theorem Sound.path_frame (h : Sound g this) (hframe : frame.At this) :
    g.Path frame.depth frame.node ∧ frame.depth ≤ this.order.length := by
  rcases hframe with ⟨hnode, hdepth⟩ | ⟨hnode, hdepth⟩
  · rw [hnode, hdepth]
    exact ⟨rfl, Nat.zero_le _⟩
  · rw [← hdepth]
    exact ⟨h.path _ hnode, h.bound _ hnode⟩

/-- What finding `child` at `depth` changes. -/
structure Found (g : Graph) (w w' : Walking) (child depth : ℕ) : Prop where
  sound : Sound g w'.this
  number : ∀ v, w'.number v = usizeMax ↔ v ∉ w'.this.order
  visited : w'.visited = w.visited
  order : ∀ v, v ∈ w'.this.order ↔ v ∈ w.this.order ∨ v = child
  children : ∀ u, ∀ v ∈ w.this.children u, v ∈ w'.this.children u
  lower : ∀ v ∈ w.this.order, w'.this.depth v ≤ w.this.depth v
  keep : ∀ v ∈ w.this.order, w.this.depth v < depth → w'.this.depth v = w.this.depth v
  atMost : w'.this.depth child ≤ depth
  fresh : child ∉ w.this.order → w'.this.depth child = depth

theorem Found.of_new (h : Walked g w stack) (hg : g.IsIndexed) (hchild : child ∉ w.this.order)
    (hroot : child ≠ Graph.root) (hpath : g.Path depth child)
    (hdepth : depth ≤ w.this.order.length + 1) :
    Found g w
      { w with
        number := Function.update w.number child w.this.order.length
        this := w.this.numbered child depth } child depth := by
  refine ⟨h.sound.numbered hchild hroot hpath hdepth, ?_, rfl, fun v => mem_numbered,
    fun u v hv => hv, ?_, ?_, ?_, ?_⟩
  · intro v
    change Function.update w.number child w.this.order.length v = usizeMax ↔
      v ∉ (w.this.numbered child depth).order
    rw [mem_numbered]
    by_cases hv : v = child
    · subst hv
      have hlength := h.sound.length_le hg
      have hsize := hg.size
      simp only [Function.update_self, or_true, not_true_eq_false, iff_false]
      omega
    · rw [Function.update_of_ne hv, h.number v]
      simp [hv]
  · intro v hv
    exact (depth_numbered hchild hv).le
  · intro v hv _
    exact depth_numbered hchild hv
  · exact depth_numbered_self.le
  · intro _
    exact depth_numbered_self

theorem Found.of_old (h : Walked g w stack) (hchild : child ∈ w.this.order)
    (hpull : PullsUp w.this [(child, depth)] this) (hpath : g.Path depth child) :
    Found g w { w with this } child depth := by
  obtain ⟨hsound, horder, hchildren, hlower, hdepth, hkeep⟩ := h.sound.pulled hpull hpath
  refine ⟨hsound, ?_, rfl, ?_, ?_, fun v _ => hlower v, fun v _ => hkeep v, hdepth, ?_⟩
  · intro v
    change w.number v = usizeMax ↔ v ∉ this.order
    rw [horder]
    exact h.number v
  · intro v
    change v ∈ this.order ↔ v ∈ w.this.order ∨ v = child
    rw [horder, or_iff_left_of_imp fun heq => heq ▸ hchild]
  · intro u v hv
    change v ∈ this.children u
    rw [hchildren]
    exact hv
  · intro hnot
    exact absurd hchild hnot

theorem Found.link (h : Found g w w' child depth)
    (hnode : node ≠ Graph.root → node ∈ w.this.order ∧ w.this.depth node + 1 = depth)
    (hstep : g.Steps node child) : Found g w (w'.link node child) child depth ∧
      (node ≠ Graph.root → child ∈ (w'.link node child).this.children node) := by
  by_cases hnew : node ≠ Graph.root ∧ child ∉ w'.this.children node
  · rw [Walking.link, if_pos hnew]
    obtain ⟨hroot, hnew⟩ := hnew
    obtain ⟨hmem, hdepth⟩ := hnode hroot
    have hkeep : w'.this.depth node = w.this.depth node := h.keep node hmem (by omega)
    refine ⟨⟨?_, h.number, h.visited, h.order, ?_, h.lower, h.keep, h.atMost, h.fresh⟩, ?_⟩
    · apply h.sound.linked ((h.order node).mpr (.inl hmem))
        ((h.order child).mpr (.inr rfl)) hstep hnew
      rw [hkeep, hdepth]
      exact h.atMost
    · intro u v hv
      exact mem_linked.mpr (.inl (h.children u v hv))
    · intro _
      exact mem_linked.mpr (.inr ⟨rfl, rfl⟩)
  · rw [Walking.link, if_neg hnew]
    refine ⟨h, ?_⟩
    intro hroot
    by_contra hmem
    exact hnew ⟨hroot, hmem⟩

/-- Finding a child records the edge to it and lowers what would be too deep. -/
theorem Finds.found (hfind : Finds w frame.node child (frame.depth + 1) w')
    (h : Walked g w (frame :: stack)) (hg : g.IsIndexed) (hroot : child ≠ Graph.root)
    (hstep : g.Steps frame.node child) :
    Found g w w' child (frame.depth + 1) ∧
      (frame.node ≠ Graph.root → child ∈ w'.this.children frame.node) := by
  have hframe := h.frames frame mem_cons_self
  obtain ⟨hpath, hdepth⟩ := h.sound.path_frame hframe
  have hnode : frame.node ≠ Graph.root →
      frame.node ∈ w.this.order ∧ w.this.depth frame.node + 1 = frame.depth + 1 := by
    intro hne
    rcases hframe with ⟨heq, -⟩ | ⟨hmem, heq⟩
    · exact absurd heq hne
    · exact ⟨hmem, by rw [heq]⟩
  have hchildPath : g.Path (frame.depth + 1) child := ⟨frame.node, hpath, hstep⟩
  cases hfind with
  | new hnew =>
    have hfound := Found.of_new h hg ((h.number child).mp hnew) hroot hchildPath (by omega)
    exact hfound.link hnode hstep
  | old hold hpull =>
    have hmem : child ∈ w.this.order := by
      by_contra hnot
      exact hold ((h.number child).mpr hnot)
    have hfound := Found.of_old h hmem hpull hchildPath
    exact hfound.link hnode hstep

theorem Found.at (h : Found g w w' child depth) (hframe : frame.At w.this)
    (hdepth : frame.depth < depth) : frame.At w'.this := by
  rcases hframe with hframe | ⟨hmem, heq⟩
  · exact .inl hframe
  · right
    rw [h.keep frame.node hmem (by omega)]
    exact ⟨(h.order frame.node).mpr (.inl hmem), heq⟩

theorem Found.recorded {u : ℕ} (h : Found g w w' child depth) (hrecorded : Recorded w u v) :
    Recorded w' u v := by
  unfold Recorded at hrecorded ⊢
  split at hrecorded
  next hu =>
      rw [if_pos hu]
      exact ⟨(h.order v).mpr (.inl hrecorded.1), (h.lower v hrecorded.1).trans hrecorded.2⟩
  next hu =>
      rw [if_neg hu]
      exact h.children u v hrecorded

theorem Found.recorded_new (h : Found g w w' child (frame.depth + 1))
    (hbelow : frame.node ≠ Graph.root → child ∈ w'.this.children frame.node)
    (hsound : Sound g w.this) (hframe : frame.At w.this) : Recorded w' frame.node child := by
  unfold Recorded
  split
  next hnode =>
      have hdepth : frame.depth = 0 := by
        rcases hframe with ⟨-, hdepth⟩ | ⟨hmem, -⟩
        · exact hdepth
        · rw [hnode] at hmem
          exact absurd hmem hsound.root
      have hatMost := h.atMost
      rw [hdepth] at hatMost
      exact ⟨(h.order child).mpr (.inr rfl), hatMost⟩
  next hnode => exact hbelow hnode

section Finding

variable (h : Walked g w (frame :: stack)) (hg : g.IsIndexed) (hroot : child ≠ Graph.root)
  (hnext : frame.next = child :: next) (hfind : Finds w frame.node child (frame.depth + 1) w')
include h hg hroot hnext hfind

theorem Walked.found :
    Found g w w' child (frame.depth + 1) ∧
      (∀ other ∈ { frame with next } :: stack, other.At w'.this ∧ other.depth < frame.depth + 1 ∧
        ∀ v ∈ other.next, g.Steps other.node v) ∧
      ∀ u, u = Graph.root ∨ u ∈ w.this.order → ∀ v, g.Steps u v →
        Recorded w' u v ∨ ∃ other ∈ { frame with next } :: stack, other.node = u ∧
          v ∈ other.next := by
  have hstep : g.Steps frame.node child :=
    h.steps frame mem_cons_self child (by rw [hnext]; exact mem_cons_self)
  obtain ⟨hfound, hbelow⟩ := hfind.found h hg hroot hstep
  have hframe := h.frames frame mem_cons_self
  refine ⟨hfound, ?_, ?_⟩
  · intro other hother
    rcases mem_cons.mp hother with rfl | hother
    · refine ⟨hfound.at hframe (Nat.lt_succ_self _), Nat.lt_succ_self _, ?_⟩
      intro v hv
      apply h.steps frame mem_cons_self
      rw [hnext]
      exact mem_cons_of_mem _ hv
    · have hdepth := (pairwise_cons.mp h.rising).1 other hother
      have hother := mem_cons_of_mem frame hother
      exact ⟨hfound.at (h.frames other hother) (by omega), by omega, h.steps other hother⟩
  · intro u hu v hv
    rcases h.pending u hu v hv with hrecorded | ⟨other, hother, rfl, hmem⟩
    · exact .inl (hfound.recorded hrecorded)
    rcases mem_cons.mp hother with rfl | hother
    · rw [hnext] at hmem
      rcases mem_cons.mp hmem with rfl | hmem
      · exact .inl (hfound.recorded_new hbelow h.sound hframe)
      · exact .inr ⟨_, mem_cons_self, rfl, hmem⟩
    · exact .inr ⟨other, mem_cons_of_mem _ hother, rfl, hmem⟩

theorem Walked.again (hvisited : w'.visited child = true) :
    Walked g w' ({ frame with next } :: stack) := by
  obtain ⟨hfound, hstack, hpending⟩ := h.found hg hroot hnext hfind
  rw [hfound.visited, h.visited] at hvisited
  have hchild : child ∈ w.this.order := hvisited.resolve_left hroot
  have horder : ∀ v, v ∈ w'.this.order ↔ v ∈ w.this.order := by
    intro v
    rw [hfound.order, or_iff_left_of_imp fun heq => heq ▸ hchild]
  refine ⟨hfound.sound, hfound.number, ?_, fun other hother => (hstack other hother).1, ?_,
    fun other hother => (hstack other hother).2.2, ?_⟩
  · intro v
    rw [hfound.visited, horder]
    exact h.visited v
  · exact pairwise_cons.mpr (pairwise_cons.mp h.rising)
  · intro u hu
    rw [horder] at hu
    exact hpending u hu

theorem Walked.enter (hvisited : w'.visited child = false) :
    Walked g { w' with visited := Function.update w'.visited child true }
      ({ node := child, depth := frame.depth + 1, next := declared g child } ::
        { frame with next } :: stack) := by
  obtain ⟨hfound, hstack, hpending⟩ := h.found hg hroot hnext hfind
  have hchild : child ∉ w.this.order := by
    intro hmem
    rw [hfound.visited, (h.visited child).mpr (.inr hmem)] at hvisited
    cases hvisited
  refine ⟨hfound.sound, hfound.number, ?_, ?_, ?_, ?_, ?_⟩
  · intro v
    change Function.update w'.visited child true v = true ↔ v = Graph.root ∨ v ∈ w'.this.order
    rw [hfound.order]
    by_cases hv : v = child
    · subst hv
      simp
    · rw [Function.update_of_ne hv, hfound.visited, h.visited]
      simp [hv]
  · intro other hother
    rcases mem_cons.mp hother with rfl | hother
    · exact .inr ⟨(hfound.order child).mpr (.inr rfl), hfound.fresh hchild⟩
    · exact (hstack other hother).1
  · refine pairwise_cons.mpr ⟨fun other hother => (hstack other hother).2.1, ?_⟩
    exact pairwise_cons.mpr (pairwise_cons.mp h.rising)
  · intro other hother
    rcases mem_cons.mp hother with rfl | hother
    · intro v hv
      exact mem_declared.mp hv
    · exact (hstack other hother).2.2
  · intro u hu v hv
    by_cases huc : u = child
    · subst huc
      exact .inr ⟨_, mem_cons_self, rfl, mem_declared.mpr hv⟩
    have hu' : u = Graph.root ∨ u ∈ w.this.order := by
      rcases hu with hu | hu
      · exact .inl hu
      · exact .inr (((hfound.order u).mp hu).resolve_right huc)
    rcases hpending u hu' v hv with hrecorded | ⟨other, hother, hnode, hmem⟩
    · exact .inl hrecorded
    · exact .inr ⟨other, mem_cons_of_mem _ hother, hnode, hmem⟩

end Finding

/-- Every round of the walk keeps its invariant. -/
theorem Walked.step (h : Walked g w stack) (hg : g.IsIndexed)
    (hroot : ∀ k, ¬g.Path (k + 1) Graph.root) {next : Walking × List Frame}
    (hstep : WalkStep g (w, stack) (.inr next)) : Walked g next.1 next.2 := by
  have hchild : ∀ {frame : Frame} {child : ℕ} {rest : List Frame} {next : List ℕ},
      Walked g w (frame :: rest) → frame.next = child :: next → child ≠ Graph.root := by
    rintro frame child rest next hw hnext rfl
    have hframe := hw.frames frame mem_cons_self
    have hsteps := hw.steps frame mem_cons_self
    rw [hnext] at hsteps
    exact hroot _ ⟨frame.node, (hw.sound.path_frame hframe).1, hsteps _ mem_cons_self⟩
  cases hstep with
  | pop hnext => exact h.pop hnext
  | again hnext hfind hvisited => exact h.again hg (hchild h hnext) hnext hfind hvisited
  | enter hnext hfind hvisited => exact h.enter hg (hchild h hnext) hnext hfind hvisited

theorem Walked.mem_children (h : Walked g w []) {u v : ℕ} :
    v ∈ w.this.children u ↔ u ∈ w.this.order ∧ g.Steps u v := by
  constructor
  · intro hv
    obtain ⟨hu, -, hstep⟩ := h.sound.children u v hv
    exact ⟨hu, hstep⟩
  · rintro ⟨hu, hstep⟩
    have hne : u ≠ Graph.root := by
      rintro rfl
      exact h.sound.root hu
    rcases h.pending u (.inr hu) v hstep with hrecorded | ⟨_, hframe, -⟩
    · rwa [Recorded, if_neg hne] at hrecorded
    · cases hframe

theorem Walked.complete (h : Walked g w []) {k : ℕ} (hpath : g.Path (k + 1) v) :
    v ∈ w.this.order ∧ w.this.depth v ≤ k + 1 := by
  induction k generalizing v with
  | zero =>
    obtain ⟨u, rfl, hstep⟩ := hpath
    rcases h.pending Graph.root (.inl rfl) v hstep with hrecorded | ⟨_, hframe, -⟩
    · exact hrecorded
    · cases hframe
  | succ k ih =>
    obtain ⟨u, hu, hstep⟩ := hpath
    obtain ⟨hmem, hdepth⟩ := ih hu
    have hchild : v ∈ w.this.children u := h.mem_children.mpr ⟨hmem, hstep⟩
    have hlevel := h.sound.relaxed u v hchild
    exact ⟨(h.sound.children u v hchild).2.1, by omega⟩

theorem visited_link : (w.link node child).visited = w.visited := by
  unfold Walking.link
  split
  · rfl
  · rfl

theorem finds_find (h : Sound g w.this) (hg : g.IsIndexed)
    (hnumber : ∀ v, w.number v = usizeMax ↔ v ∉ w.this.order) :
    Finds w node child depth (find g w node child depth) := by
  by_cases hchild : w.number child = usizeMax
  · rw [find_new hchild]
    exact .new hchild
  rw [find_old hchild]
  have hmem : child ∈ w.this.order := by
    by_contra hnot
    exact hchild ((hnumber child).mpr hnot)
  refine .old hchild (pullsUp_pullUp (h.pullable hmem) ?_)
  have hlength := h.length_le hg
  have hsum : (w.this.order.map w.this.depth).sum ≤ w.this.order.length * w.this.order.length := by
    have hsum := sum_le_card_nsmul (w.this.order.map w.this.depth) w.this.order.length
      (forall_mem_map.mpr h.bound)
    simpa using hsum
  calc pullVariant w.this.order.length (w.this, [(child, depth)])
      ≤ 1 + (w.this.order.length + 1) * (w.this.order.length * w.this.order.length) := by
        simp only [pullVariant, length_singleton]
        gcongr
    _ ≤ (w.this.order.length + 1) ^ 3 := by
        ring_nf
        omega
    _ < (g.nodes.length + 1) ^ 3 := Nat.pow_lt_pow_left (by omega) (by decide)

/-- The edges to walk: those of the nodes not visited yet and those that wait. -/
def walkVariant (g : Graph) (s : Walking × List Frame) : ℕ :=
  unvisited s.1.visited (fun v => (declared g v).length + 1) (List.range g.nodes.length) +
    (s.2.map fun frame => frame.next.length + 1).sum

theorem visited_find : (find g w node child depth).visited = w.visited := by
  by_cases hchild : w.number child = usizeMax
  · rw [find_new hchild, visited_link]
  · rw [find_old hchild, visited_link]

/-- With enough fuel the walk ends, since every round leaves fewer edges to walk. -/
theorem runs_walk {fuel : ℕ} (h : Walked g w stack) (hg : g.IsIndexed)
    (hroot : ∀ k, ¬g.Path (k + 1) Graph.root) (hfuel : walkVariant g (w, stack) < fuel) :
    Runs (WalkStep g) (w, stack) (walk g fuel w stack) := by
  refine .of_fuel (fun fuel s => walk g fuel s.1 s.2) (fun s => Walked g s.1 s.2)
    (walkVariant g) ?_ h hfuel
  rintro ⟨w, stack⟩ hs
  cases stack with
  | nil => exact .inl ⟨w, .done, fun n => rfl⟩
  | cons frame stack =>
    right
    obtain ⟨node, depth, next⟩ := frame
    cases next with
    | nil =>
      have hstep : WalkStep g (w, ⟨node, depth, []⟩ :: stack) (.inr (w, stack)) := .pop rfl
      refine ⟨(w, stack), hstep, hs.step hg hroot hstep, ?_, fun n => rfl⟩
      simp [walkVariant]
    | cons child next =>
      have hfind : Finds w node child (depth + 1) (find g w node child (depth + 1)) :=
        finds_find hs.sound hg hs.number
      have hchild : child < g.nodes.length := by
        obtain ⟨hpath, -⟩ := hs.sound.path_frame (hs.frames _ mem_cons_self)
        have hchildPath : g.Path (depth + 1) child :=
          ⟨node, hpath, hs.steps _ mem_cons_self child mem_cons_self⟩
        exact Path.lt hg hchildPath
      cases hvisited : (find g w node child (depth + 1)).visited child with
      | true =>
        have hstep : WalkStep g (w, ⟨node, depth, child :: next⟩ :: stack)
            (.inr (find g w node child (depth + 1), ⟨node, depth, next⟩ :: stack)) :=
          .again rfl hfind hvisited
        refine ⟨_, hstep, hs.step hg hroot hstep, ?_, ?_⟩
        · simp [walkVariant, visited_find]
        · intro n
          simp [walk, hvisited]
      | false =>
        have hstep : WalkStep g (w, ⟨node, depth, child :: next⟩ :: stack)
            (.inr ({ find g w node child (depth + 1) with
                visited := Function.update (find g w node child (depth + 1)).visited child true },
              ⟨child, depth + 1, declared g child⟩ :: ⟨node, depth, next⟩ :: stack)) :=
          .enter rfl hfind hvisited
        refine ⟨_, hstep, hs.step hg hroot hstep, ?_, ?_⟩
        · rw [visited_find] at hvisited
          have hsum := unvisited_update w.visited (fun v => (declared g v).length + 1) nodup_range
            (mem_range.mpr hchild) hvisited
          simp only [walkVariant, visited_find, map_cons, sum_cons, length_cons]
          omega
        · intro n
          simp [walk, hvisited]

end Walk

/-! ## The numbering -/

section Numbering

variable {g : Graph} {l : List ℕ} {w : Walking}

theorem walked_unwalked : Walked g unwalked [rootFrame g] := by
  have hempty : ∀ v, v ∉ unwalked.this.order := fun v hv => by cases hv
  refine ⟨⟨nodup_nil, hempty _, ?_, ?_, ?_, ?_, ?_, fun v => rfl⟩, ?_, ?_, ?_, ?_, ?_, ?_⟩
  · intro v hv
    cases hv
  · intro v hv
    cases hv
  · intro u v hv
    cases hv
  · intro u
    exact nodup_nil
  · intro u v hv
    cases hv
  · intro v
    exact iff_of_true rfl (hempty v)
  · intro v
    simp [unwalked]
  · intro frame hframe
    rw [mem_singleton.mp hframe]
    exact .inl ⟨rfl, rfl⟩
  · exact pairwise_singleton _ _
  · intro frame hframe v hv
    rw [mem_singleton.mp hframe] at hv ⊢
    exact mem_declared.mp hv
  · rintro u (rfl | hu) v hv
    · exact .inr ⟨rootFrame g, mem_cons_self, rfl, mem_declared.mpr hv⟩
    · cases hu

theorem sum_ite_eq_count {a : ℕ} : (l.map fun v => if a = v then 1 else 0).sum = l.count a := by
  induction l with
  | nil => rfl
  | cons v l ih =>
    have heq : (v == a) = decide (a = v) := by
      rw [Bool.beq_eq_decide_eq]
      exact decide_eq_decide.mpr eq_comm
    rw [map_cons, sum_cons, ih, count_cons, heq, Nat.add_comm]
    simp

theorem sum_declared_le (h : l.Nodup) :
    (l.map fun v => (declared g v).length).sum ≤ g.links.length := by
  have hlength : ∀ v, (declared g v).length = g.links.countP (·.source = v) := by
    intro v
    simp [declared, Graph.outgoing, countP_eq_length_filter]
  simp only [hlength]
  induction g.links with
  | nil => simp
  | cons link links ih =>
    have hone : (l.map fun v => if link.source = v then 1 else 0).sum ≤ 1 := by
      rw [sum_ite_eq_count]
      exact nodup_iff_count_le_one.mp h link.source
    simp only [countP_cons, sum_map_add, decide_eq_true_eq, length_cons]
    omega

theorem walkVariant_unwalked (hg : g.IsIndexed) :
    walkVariant g (unwalked, [rootFrame g]) ≤ g.nodes.length + g.links.length := by
  have hroot := unvisited_update (fun _ => false) (fun v => (declared g v).length + 1) nodup_range
    (mem_range.mpr hg.root) rfl
  have htotal : unvisited (fun _ => false) (fun v => (declared g v).length + 1)
      (List.range g.nodes.length) ≤ g.links.length + g.nodes.length := by
    simp only [unvisited, Bool.false_eq_true, if_false]
    rw [sum_map_add]
    have hlinks : _ ≤ g.links.length := sum_declared_le (g := g) (nodup_range (n := g.nodes.length))
    simpa using hlinks
  have hvisited : unwalked.visited = Function.update (fun _ => false) Graph.root true := by
    funext v
    simp [unwalked, Function.update_apply, Bool.beq_eq_decide_eq]
  simp only [walkVariant, hvisited, rootFrame, map_cons, map_nil, sum_cons, sum_nil]
  omega

theorem runs_of (hg : g.IsIndexed) (hroot : ∀ k, ¬g.Path (k + 1) Graph.root) :
    ∃ w, Runs (WalkStep g) (unwalked, [rootFrame g]) w ∧ Walked g w [] ∧ of g = w.sorted := by
  have hvariant := walkVariant_unwalked hg
  have hrun : Runs (WalkStep g) (unwalked, [rootFrame g]) _ :=
    runs_walk walked_unwalked hg hroot (Nat.lt_succ_of_le hvariant)
  refine ⟨_, hrun, ?_, rfl⟩
  refine Runs.invariant (fun s => Walked g s.1 s.2) (fun w => Walked g w []) hrun ?_ ?_
    walked_unwalked
  · intro s s' hs hstep
    exact hs.step hg hroot hstep
  · intro s w hs hstep
    cases hstep
    exact hs

theorem hashOrder_perm (number : ℕ → ℕ) (children : List ℕ) :
    (hashOrder number children).Perm children :=
  perm_insertionSort _ _

theorem buckets_enough {size fuel n : ℕ} (h : size * 4 ≤ n * 2 ^ fuel * 3) :
    size * 4 ≤ buckets size fuel n * 3 := by
  induction fuel generalizing n with
  | zero => simpa [buckets] using h
  | succ fuel ih =>
    rw [buckets]
    split
    next =>
        apply ih
        rwa [Nat.mul_assoc n 2, ← Nat.pow_succ']
    next hdone => omega

/-- What the conflict order is: the nodes below the root, each once and at the length of a
shortest path, with the edges between them. -/
structure Complete (g : Graph) (this : ConflictOrder) : Prop where
  nodup : this.order.Nodup
  mem_iff : ∀ v, v ∈ this.order ↔ Relation.TransGen g.Steps Graph.root v
  depth : ∀ v ∈ this.order, IsLeast {k | g.Path k v} (this.depth v)
  children : ∀ u v, v ∈ this.children u ↔ u ∈ this.order ∧ g.Steps u v
  distinct : ∀ u, (this.children u).Nodup
  inDegree : ∀ v, this.inDegree v = (this.parents v).length

theorem Walked.mem_order (h : Walked g w []) {v : ℕ} :
    v ∈ w.this.order ↔ Relation.TransGen g.Steps Graph.root v := by
  rw [Graph.transGen_iff_path]
  constructor
  · intro hv
    have hpath : g.Path (w.this.depth v) v := h.sound.path v hv
    cases hdepth : w.this.depth v with
    | zero =>
      rw [hdepth] at hpath
      obtain rfl : v = Graph.root := hpath
      exact absurd hv h.sound.root
    | succ k => exact ⟨k, hdepth ▸ hpath⟩
  · rintro ⟨k, hk⟩
    exact (h.complete hk).1

theorem complete_of (hg : g.IsIndexed) (hroot : ∀ k, ¬g.Path (k + 1) Graph.root) :
    Complete g (of g) := by
  obtain ⟨w, -, hw, hof⟩ := runs_of hg hroot
  have hchildren : ∀ u v, v ∈ w.sorted.children u ↔ v ∈ w.this.children u :=
    fun u v => (hashOrder_perm _ _).mem_iff
  rw [hof]
  refine ⟨hw.sound.nodup, fun v => hw.mem_order, ?_, ?_, ?_, ?_⟩
  · intro v hv
    refine ⟨hw.sound.path v hv, ?_⟩
    intro k hk
    cases k with
    | zero =>
      obtain rfl : v = Graph.root := hk
      exact absurd hv hw.sound.root
    | succ k => exact (hw.complete hk).2
  · intro u v
    rw [hchildren]
    exact hw.mem_children
  · intro u
    exact (hashOrder_perm _ _).nodup_iff.mpr (hw.sound.distinct u)
  · intro v
    have hparents : w.sorted.parents v = w.this.parents v := by
      apply filter_congr
      intro u _
      simp [hchildren]
    rw [hparents]
    exact hw.sound.inDegree v

section Complete

variable {this : ConflictOrder} (h : Complete g this)

include h

theorem Complete.mem_of_mem_children {u v : ℕ} (hv : v ∈ this.children u) : v ∈ this.order := by
  obtain ⟨hu, hstep⟩ := (h.children u v).mp hv
  exact (h.mem_iff v).mpr (((h.mem_iff u).mp hu).tail hstep)

theorem Complete.length_children_le (u : ℕ) : (this.children u).length ≤ (declared g u).length := by
  have hsubset : this.children u ⊆ declared g u := by
    intro v hv
    exact mem_declared.mpr ((h.children u v).mp hv).2
  exact (subperm_of_subset (h.distinct u) hsubset).length_le

theorem Complete.sum_children_le :
    (this.order.map fun u => (this.children u).length).sum ≤ g.links.length := by
  refine le_trans ?_ (sum_declared_le h.nodup)
  exact sum_le_sum fun u _ => h.length_children_le u

theorem Complete.length_order_le (hg : g.IsIndexed) : this.order.length ≤ g.nodes.length := by
  have hsubset : this.order ⊆ List.range g.nodes.length := by
    intro v hv
    obtain ⟨k, hk⟩ := Graph.transGen_iff_path.mp ((h.mem_iff v).mp hv)
    exact mem_range.mpr (Path.lt hg hk)
  have hlength := (subperm_of_subset h.nodup hsubset).length_le
  rwa [length_range] at hlength

end Complete

end Numbering

end ConflictOrder

end Raeva
