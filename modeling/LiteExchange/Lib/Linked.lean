/-
  Doubly linked lists threaded through two maps `nxt prv : ι → ι`, with a sentinel `nil` that
  stands for "no neighbour" (an intrusive list over array indices).

  `Linked nxt prv p xs q` says that `xs` is a linked segment whose first element points back
  to `p` and whose last element points on to `q`; `DList nxt prv nil xs` is a whole list:
  linked, duplicate-free and free of the sentinel.

  * `dlist_linkBack`, `dlist_unlinkFront`, `dlist_unlink`: the three surgeries (append at the
    tail, drop the head, cut an element out) do to the list what their names say.
  * `dlist_congr`: a list only depends on the links of its own elements (the frame rule).
  * `walk_dlist`, `walk_dlist_back`: following `nxt` from the head, or `prv` from the tail, reads
    the list back.
-/
import Mathlib

namespace LiteExchange.Lib

variable {ι : Type} {nxt prv nxt' prv' : ι → ι} {nil p q x y : ι} {xs ys : List ι}

/-- `xs` is a doubly linked segment, entered from `p` and left towards `q`. -/
def Linked (nxt prv : ι → ι) : ι → List ι → ι → Prop
  | _, [], _ => True
  | p, x :: xs, q => prv x = p ∧ nxt x = xs.headD q ∧ Linked nxt prv x xs q

theorem headD_append (xs ys : List ι) (q : ι) :
    (xs ++ ys).headD q = xs.headD (ys.headD q) := by
  cases xs <;> rfl

theorem getLastD_cons (x : ι) (xs : List ι) (p : ι) : (x :: xs).getLastD p = xs.getLastD x := by
  cases xs <;> rfl

theorem linked_append : Linked nxt prv p (xs ++ ys) q ↔
    Linked nxt prv p xs (ys.headD q) ∧ Linked nxt prv (xs.getLastD p) ys q := by
  induction xs generalizing p with
  | nil => simp [Linked]
  | cons x xs ih =>
    simp only [List.cons_append, Linked, ih, headD_append, getLastD_cons]
    tauto

theorem headD_reverse (xs : List ι) (q : ι) : xs.reverse.headD q = xs.getLastD q := by
  rw [List.headD_eq_head?_getD, List.head?_reverse, List.getLastD_eq_getLast?]

/-- A segment read backwards is linked with the two directions swapped. -/
theorem linked_reverse (hl : Linked nxt prv p xs q) : Linked prv nxt q xs.reverse p := by
  induction xs generalizing p with
  | nil => trivial
  | cons x xs ih =>
    obtain ⟨hprev, hnext, htail⟩ := hl
    rw [List.reverse_cons, linked_append]
    refine ⟨ih htail, ?_, hprev, trivial⟩
    rw [hnext, ← headD_reverse, List.reverse_reverse]

/-- A segment depends only on the links of its own elements. -/
theorem linked_congr (h : ∀ x ∈ xs, nxt' x = nxt x ∧ prv' x = prv x)
    (hl : Linked nxt prv p xs q) : Linked nxt' prv' p xs q := by
  induction xs generalizing p with
  | nil => trivial
  | cons x xs ih =>
    obtain ⟨hp, hn, ht⟩ := hl
    obtain ⟨h1, h2⟩ := h x List.mem_cons_self
    exact ⟨h2.trans hp, h1.trans hn, ih (fun y hy => h y (List.mem_cons_of_mem x hy)) ht⟩

/-- Changing where the first element points back to. -/
theorem linked_enter (hl : Linked nxt prv p (x :: xs) q) (hx : x ∉ xs) [DecidableEq ι] (p' : ι) :
    Linked nxt (Function.update prv x p') p' (x :: xs) q := by
  obtain ⟨-, hn, ht⟩ := hl
  refine ⟨Function.update_self .., hn, linked_congr (fun y hy => ⟨rfl, ?_⟩) ht⟩
  exact Function.update_of_ne (fun e : y = x => hx (e ▸ hy)) ..

/-- Changing where the last element points on to. -/
theorem linked_leave (hl : Linked nxt prv p (xs ++ [x]) q) (hx : x ∉ xs) [DecidableEq ι] (q' : ι) :
    Linked (Function.update nxt x q') prv p (xs ++ [x]) q' := by
  rw [linked_append] at hl ⊢
  obtain ⟨h1, h2, -, -⟩ := hl
  refine ⟨linked_congr (fun y hy => ⟨?_, rfl⟩) h1, h2, Function.update_self .., trivial⟩
  exact Function.update_of_ne (fun e : y = x => hx (e ▸ hy)) ..

/-! ## Whole lists -/

/-- `xs` is a whole list: linked from sentinel to sentinel, without repetition, and the
    sentinel is not one of its elements. -/
structure DList (nxt prv : ι → ι) (nil : ι) (xs : List ι) : Prop where
  linked : Linked nxt prv nil xs nil
  nodup : xs.Nodup
  nil_notMem : nil ∉ xs

theorem dlist_nil : DList nxt prv nil [] := ⟨trivial, List.nodup_nil, List.not_mem_nil⟩

theorem dlist_congr (h : ∀ x ∈ xs, nxt' x = nxt x ∧ prv' x = prv x)
    (hl : DList nxt prv nil xs) : DList nxt' prv' nil xs :=
  ⟨linked_congr h hl.linked, hl.nodup, hl.nil_notMem⟩

theorem headD_eq_nil_iff (h : nil ∉ xs) : xs.headD nil = nil ↔ xs = [] := by
  cases xs with
  | nil => simp
  | cons x xs => simpa using fun e : x = nil => h (e ▸ List.mem_cons_self)

theorem getLastD_eq_nil_iff (h : nil ∉ xs) : xs.getLastD nil = nil ↔ xs = [] := by
  rcases List.eq_nil_or_concat xs with rfl | ⟨as, a, rfl⟩
  · simp
  · rw [List.concat_eq_append] at h ⊢
    simpa using fun e : a = nil => h (by simp [e])

variable [DecidableEq ι]

/-- The `nxt` map after `x` is linked in behind the tail `t`. -/
def linkBackNext (nil t x : ι) (nxt : ι → ι) : ι → ι :=
  if t = nil then Function.update nxt x nil
  else Function.update (Function.update nxt x nil) t x

/-- The `prv` map after the head has been unlinked, `h` being the new head. -/
def unlinkFrontPrev (nil h : ι) (prv : ι → ι) : ι → ι :=
  if h = nil then prv else Function.update prv h nil

/-- The `nxt` map after `x` has been cut out. -/
def unlinkNext (nil x : ι) (nxt prv : ι → ι) : ι → ι :=
  if prv x = nil then nxt else Function.update nxt (prv x) (nxt x)

/-- The `prv` map after `x` has been cut out. -/
def unlinkPrev (nil x : ι) (nxt prv : ι → ι) : ι → ι :=
  if nxt x = nil then prv else Function.update prv (nxt x) (prv x)

theorem dlist_linkBack (hl : DList nxt prv nil xs) (hx : x ∉ xs) (hnil : x ≠ nil) :
    DList (linkBackNext nil (xs.getLastD nil) x nxt)
      (Function.update prv x (xs.getLastD nil)) nil (xs ++ [x]) := by
  have hnd : (xs ++ [x]).Nodup := by
    rw [List.nodup_append]
    exact ⟨hl.nodup, by simp, fun a ha b hb => by
      rw [List.mem_singleton.mp hb]; exact fun e => hx (e ▸ ha)⟩
  have hnn : nil ∉ xs ++ [x] := by simpa using ⟨hl.nil_notMem, hnil.symm⟩
  refine ⟨?_, hnd, hnn⟩
  rcases List.eq_nil_or_concat xs with rfl | ⟨as, a, rfl⟩
  · simp [Linked, linkBackNext]
  · rw [List.concat_eq_append] at hl hx hnn ⊢
    have ha : a ≠ nil := fun e => hl.nil_notMem (by simp [e])
    have hax : x ≠ a := fun e => hx (by simp [e])
    have haas : a ∉ as := fun h => by
      have := hl.nodup
      rw [List.nodup_append] at this
      exact this.2.2 a h a (by simp) rfl
    have hlast : (as ++ [a]).getLastD nil = a := by simp
    rw [hlast, linkBackNext, if_neg ha]
    -- the old list now leaves towards `x` instead of the sentinel
    have h1 : Linked (Function.update nxt a x) prv nil (as ++ [a]) x :=
      linked_leave hl.linked haas x
    have h2 : Linked (Function.update (Function.update nxt x nil) a x) (Function.update prv x a)
        nil (as ++ [a]) x := by
      refine linked_congr (fun y hy => ?_) h1
      have hyx : y ≠ x := fun e => hx (e ▸ hy)
      refine ⟨?_, Function.update_of_ne hyx ..⟩
      by_cases hya : y = a
      · rw [hya, Function.update_self, Function.update_self]
      · rw [Function.update_of_ne hya, Function.update_of_ne hyx, Function.update_of_ne hya]
    rw [linked_append]
    refine ⟨h2, ?_, ?_, trivial⟩
    · rw [hlast, Function.update_self]
    · rw [Function.update_of_ne hax, Function.update_self]; rfl

theorem dlist_unlinkFront (hl : DList nxt prv nil (x :: xs)) :
    DList nxt (unlinkFrontPrev nil (xs.headD nil) prv) nil xs := by
  have hnd := List.nodup_cons.mp hl.nodup
  have hnn : nil ∉ xs := fun h => hl.nil_notMem (List.mem_cons_of_mem x h)
  refine ⟨?_, hnd.2, hnn⟩
  cases xs with
  | nil => trivial
  | cons y ys =>
    have hy : y ≠ nil := fun e => hnn (e ▸ List.mem_cons_self)
    rw [List.headD_cons, unlinkFrontPrev, if_neg hy]
    exact linked_enter hl.linked.2.2 (List.nodup_cons.mp hnd.2).1 nil

theorem dlist_unlink (hl : DList nxt prv nil (xs ++ x :: ys)) :
    DList (unlinkNext nil x nxt prv) (unlinkPrev nil x nxt prv) nil (xs ++ ys) := by
  have hnd := hl.nodup
  rw [List.nodup_append, List.nodup_cons] at hnd
  obtain ⟨hndx, ⟨hxy, hndy⟩, hdisj⟩ := hnd
  have hnx : nil ∉ xs := fun h => hl.nil_notMem (List.mem_append_left _ h)
  have hny : nil ∉ ys := fun h => hl.nil_notMem (by simp [h])
  obtain ⟨hl1, hprv, hnxt, hl2⟩ := linked_append.mp hl.linked
  refine ⟨?_, ?_, by simpa using ⟨hnx, hny⟩⟩
  · rw [linked_append]
    constructor
    · -- the prefix: only its last element's `nxt` moves, from `x` to what follows `x`
      rcases List.eq_nil_or_concat xs with rfl | ⟨as, a, rfl⟩
      · trivial
      · rw [List.concat_eq_append] at *
        have ha : a ≠ nil := fun e => hnx (by simp [e])
        have hlast : (as ++ [a]).getLastD nil = a := by simp
        have haas : a ∉ as := fun h => by
          rw [List.nodup_append] at hndx
          exact hndx.2.2 a h a (by simp) rfl
        rw [unlinkNext, if_neg (by rw [hprv, hlast]; exact ha), hprv, hlast, hnxt]
        refine linked_congr (fun z hz => ⟨rfl, ?_⟩) (linked_leave hl1 haas _)
        unfold unlinkPrev
        split
        · rfl
        · rename_i hne
          refine Function.update_of_ne (fun e => ?_) ..
          cases ys with
          | nil => exact hne hnxt
          | cons y ys =>
            exact hdisj z hz y (by simp) (e.trans hnxt)
    · -- the suffix: only its first element's `prv` moves, from `x` to what precedes `x`
      cases ys with
      | nil => trivial
      | cons y ys =>
        have hy : y ≠ nil := fun e => hny (by simp [e])
        have hyy : y ∉ ys := (List.nodup_cons.mp hndy).1
        have hnxty : nxt x = y := hnxt
        rw [unlinkPrev, if_neg (by rw [hnxty]; exact hy), hnxty, hprv]
        refine linked_congr (fun z hz => ⟨?_, rfl⟩) (linked_enter hl2 hyy _)
        unfold unlinkNext
        split
        · rfl
        · rename_i hne
          refine Function.update_of_ne (fun e => ?_) ..
          rcases List.eq_nil_or_concat xs with rfl | ⟨as, a, rfl⟩
          · exact hne hprv
          · rw [List.concat_eq_append] at *
            have hlast : (as ++ [a]).getLastD nil = a := by simp
            exact hdisj a (by simp) z (List.mem_cons_of_mem x hz) (by rw [e, hprv, hlast])
  · rw [List.nodup_append]
    exact ⟨hndx, hndy, fun a ha b hb => hdisj a ha b (List.mem_cons_of_mem x hb)⟩

/-! ## Reading a list back -/

/-- The elements met by following `nxt` from `x`, for at most `n` steps. -/
def walk (nxt : ι → ι) (nil : ι) : Nat → ι → List ι
  | 0, _ => []
  | n + 1, x => if x = nil then [] else x :: walk nxt nil n (nxt x)

theorem walk_linked (hl : Linked nxt prv p xs nil) (hnil : nil ∉ xs) {n : Nat}
    (hn : xs.length ≤ n) : walk nxt nil n (xs.headD nil) = xs := by
  induction xs generalizing p n with
  | nil => cases n <;> simp [walk]
  | cons x xs ih =>
    cases n with
    | zero => simp at hn
    | succ n =>
      have hx : x ≠ nil := fun e => hnil (e ▸ List.mem_cons_self)
      simp only [List.headD_cons, walk, if_neg hx, hl.2.1]
      rw [ih hl.2.2 (fun h => hnil (List.mem_cons_of_mem x h)) (by simpa using hn)]

theorem walk_dlist (hl : DList nxt prv nil xs) {n : Nat} (hn : xs.length ≤ n) :
    walk nxt nil n (xs.headD nil) = xs :=
  walk_linked hl.linked hl.nil_notMem hn

/-- Following `prv` from the last element reads the list backwards. -/
theorem walk_dlist_back (hl : DList nxt prv nil xs) {n : Nat} (hn : xs.length ≤ n) :
    walk prv nil n (xs.getLastD nil) = xs.reverse := by
  rw [← headD_reverse]
  refine walk_linked (linked_reverse hl.linked) ?_ (by rwa [List.length_reverse])
  rw [List.mem_reverse]
  exact hl.nil_notMem

end LiteExchange.Lib
