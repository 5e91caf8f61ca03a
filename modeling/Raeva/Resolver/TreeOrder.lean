import Raeva.Resolver.Fixpoint

/-!
# Shared orders

A tree order is a chain of nodes that orders below it share.  Comparing walks up both
chains and stops early where they meet in one node, which it tells by its address.
Whatever is shared, it compares the lists of indices.
-/

namespace Raeva

open List

/-- An order as its nodes hold it, each with the address it is at. -/
inductive LinkedOrder where
  | root
  | node (address index len : ℕ) (parent : LinkedOrder)

namespace LinkedOrder

def len : LinkedOrder → ℕ
  | root => 0
  | node _ _ len _ => len

def child (order : LinkedOrder) (address index : ℕ) : LinkedOrder :=
  .node address (min index TreeOrder.maxIndex) (order.len + 1) order

def raise (n : ℕ) : LinkedOrder → LinkedOrder
  | root => root
  | node address index len parent =>
    if n < len then parent.raise n else node address index len parent

def cmpUp : LinkedOrder → LinkedOrder → Ordering → Ordering
  | node x i _ a, node y j _ b, first =>
    if x = y then first else cmpUp a b ((compare i j).then first)
  | _, _, first => first

def cmp (self other : LinkedOrder) : Ordering :=
  let byLen := compare self.len other.len
  let a := self.raise other.len
  let b := other.raise a.len
  (cmpUp a b .eq).then byLen

def eq (self other : LinkedOrder) : Bool :=
  self.cmp other == .eq

/-- The writes to a hasher, whose state they change. -/
def hash {σ : Type} (write : σ → ℕ → σ) : LinkedOrder → σ → σ
  | root, state => state
  | node _ index _ parent, state => parent.hash write (write state index)

def cmpItems (self other : ℕ × LinkedOrder × ℕ) : Ordering :=
  (compare other.1 self.1).then
    ((other.2.1.cmp self.2.1).then (compare other.2.2 self.2.2))

/-- The indices on the way up from the declaration. -/
def indices : LinkedOrder → List ℕ
  | root => []
  | node _ index _ parent => index :: parent.indices

/-- The indices on the way down from the root. -/
def path (order : LinkedOrder) : List ℕ :=
  order.indices.reverse

/-- The nodes are where they say they are, and count those above them. -/
def Held (heap : ℕ → LinkedOrder) : LinkedOrder → Prop
  | root => True
  | node address index len parent =>
    heap address = node address index len parent ∧ len = parent.len + 1 ∧ parent.Held heap

variable {heap : ℕ → LinkedOrder} {a b c : LinkedOrder}

theorem Held.length_indices (h : a.Held heap) : a.indices.length = a.len := by
  induction a with
  | root => rfl
  | node address index len parent ih =>
    obtain ⟨-, hlen, hparent⟩ := h
    rw [indices, length_cons, ih hparent]
    exact hlen.symm

theorem Held.raise (h : a.Held heap) (n : ℕ) :
    (a.raise n).Held heap ∧ (a.raise n).indices = a.indices.drop (a.len - n) := by
  induction a with
  | root => exact ⟨trivial, drop_nil.symm⟩
  | node address index len parent ih =>
    obtain ⟨hraised, hindices⟩ := ih h.2.2
    have hlen : len = parent.len + 1 := h.2.1
    rw [LinkedOrder.raise]
    split
    · refine ⟨hraised, ?_⟩
      have hsub : len - n = parent.len - n + 1 := by omega
      rw [hindices, indices, LinkedOrder.len, hsub, drop_succ_cons]
    · refine ⟨h, ?_⟩
      have hsub : len - n = 0 := by omega
      rw [LinkedOrder.len, hsub, drop_zero]

theorem cmpUp_eq (ha : a.Held heap) (hb : b.Held heap) (first : Ordering) :
    a.cmpUp b first = TreeOrder.cmpUp a.indices b.indices first := by
  induction a generalizing b first with
  | root => rfl
  | node x i m a ih =>
    cases b with
    | root => rfl
    | node y j n b =>
      rw [cmpUp]
      split
      · -- one node, so the indices above are the same
        rename_i hxy
        have hsame : node x i m a = node y j n b := by rw [← ha.1, hxy, hb.1]
        have hself : compare (a.indices.reverse ++ [i]) (a.indices.reverse ++ [i]) = .eq :=
          Std.ReflCmp.compare_self
        rw [← hsame, TreeOrder.cmpUp_eq rfl, indices, reverse_cons, hself]
        rfl
      · exact ih ha.2.2 hb.2.2 _

theorem cmp_eq (ha : a.Held heap) (hb : b.Held heap) : a.cmp b = compare a.path b.path := by
  obtain ⟨ha', hindices⟩ := ha.raise b.len
  have hlength : (a.raise b.len).len = min a.len b.len := by
    rw [← ha'.length_indices, hindices, length_drop, ha.length_indices]
    omega
  obtain ⟨hb', hindices'⟩ := hb.raise (min a.len b.len)
  have hdrop : b.len - min a.len b.len = b.len - a.len := by omega
  have hcmp := TreeOrder.cmp_eq_compare ⟨a.indices⟩ ⟨b.indices⟩
  rw [TreeOrder.cmp, ha.length_indices, hb.length_indices] at hcmp
  rw [cmp, hlength, cmpUp_eq ha' hb', hindices, hindices', hdrop]
  exact hcmp

theorem hash_eq {σ : Type} (write : σ → ℕ → σ) (a : LinkedOrder) (state : σ) :
    a.hash write state = a.path.foldr (fun index state => write state index) state := by
  rw [path, foldr_reverse]
  induction a generalizing state with
  | root => rfl
  | node address index len parent ih => exact ih (write state index)

end LinkedOrder

abbrev SharedOrder (heap : ℕ → LinkedOrder) := {order : LinkedOrder // order.Held heap}

namespace SharedOrder

variable {heap : ℕ → LinkedOrder}

def root : SharedOrder heap :=
  ⟨.root, trivial⟩

def child (order : SharedOrder heap) (address index : ℕ)
    (h : heap address = order.1.child address index) : SharedOrder heap :=
  ⟨order.1.child address index, h, rfl, order.2⟩

/-- Comparing, equality and hashing are those of the indices from the root, so orders are
totally ordered, and queue items come in the reverse order of their keys. -/
theorem lexicographic (heap : ℕ → LinkedOrder) :
    (∀ a b : SharedOrder heap, a.1.cmp b = compare a.1.path b.1.path ∧
      (a.1.eq b = true ↔ a.1.path = b.1.path)) ∧
    (∀ (a : SharedOrder heap) (σ : Type) (write : σ → ℕ → σ) (state : σ),
      a.1.hash write state = a.1.path.foldr (fun index state => write state index) state) ∧
    Std.TransCmp (fun a b : SharedOrder heap => a.1.cmp b) ∧
    ∀ (m n : ℕ) (a b : SharedOrder heap) (s t : ℕ), LinkedOrder.cmpItems (m, a, s) (n, b, t) =
      ((compare m n).then ((compare a.1.path b.1.path).then (compare s t))).swap := by
  have hcmp (a b : SharedOrder heap) : a.1.cmp b = compare a.1.path b.1.path :=
    LinkedOrder.cmp_eq a.2 b.2
  have hswap (p q : List ℕ) : compare p q = (compare q p).swap := Std.OrientedCmp.eq_swap
  refine ⟨fun a b => ⟨hcmp a b, ?_⟩, fun a _ => LinkedOrder.hash_eq (a := a.1), ?_, ?_⟩
  · rw [LinkedOrder.eq, hcmp, beq_iff_eq, Std.LawfulEqCmp.compare_eq_iff_eq]
  · refine { eq_swap := ?_, isLE_trans := ?_ }
    · intro a b
      rw [hcmp, hcmp, hswap]
    · intro a b c
      rw [hcmp, hcmp, hcmp]
      exact Std.TransCmp.isLE_trans
  · intro m n a b s t
    rw [LinkedOrder.cmpItems, hcmp, hswap, Ordering.swap_then, Ordering.swap_then,
      Nat.compare_swap, Nat.compare_swap]

end SharedOrder

end Raeva
