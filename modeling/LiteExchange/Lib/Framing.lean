/-
  Streams of frames. A frame reader looks at the front of a byte list and finds a whole frame
  there, or needs more bytes, or finds that no frame can start this way. What it finds must not
  change when more bytes arrive (`Framer`).

  `readAll` takes frame after frame off a list. `Whole bs xs` says that `bs` is made of whole
  frames with the contents `xs`: reading any list that starts with `bs` gives `xs` first. A frame
  taken off the front of a buffer is whole (`whole_frame`), and so are whole pieces put together
  (`Whole.append`), so a reader that is given a stream in pieces has at any time read what
  `readAll` reads of the stream so far.
-/
import Mathlib.Data.List.Basic

namespace LiteExchange.Lib

/-- What stands at the front of a list: too little to tell, no frame, or a frame of `n` bytes,
    with a content or to be skipped. -/
inductive Verdict (μ : Type) where
  | more
  | bad
  | frame (n : Nat) (x : Option μ)

/-- A frame reader whose findings are stable under more bytes. -/
structure Framer (β μ : Type) where
  next : List β → Verdict μ
  pos : ∀ {bs n x}, next bs = .frame n x → 0 < n
  le : ∀ {bs n x}, next bs = .frame n x → n ≤ bs.length
  stable : ∀ {bs n x}, next bs = .frame n x → ∀ cs, next (bs.take n ++ cs) = .frame n x
  bad_stable : ∀ {bs}, next bs = .bad → ∀ cs, next (bs ++ cs) = .bad

variable {β μ : Type}

/-- At most `fuel` frames of a list, and whether it goes on with something that is none. -/
def Framer.read (F : Framer β μ) : Nat → List β → List μ × Bool
  | 0, _ => ([], false)
  | fuel + 1, bs =>
    match F.next bs with
    | .more => ([], false)
    | .bad => ([], true)
    | .frame n x => (x.toList ++ (F.read fuel (bs.drop n)).1, (F.read fuel (bs.drop n)).2)

/-- The contents of the frames of a list, and whether it goes on with something that is none. -/
def Framer.readAll (F : Framer β μ) (bs : List β) : List μ × Bool := F.read (bs.length + 1) bs

variable {F : Framer β μ} {bs cs : List β} {n : Nat} {x : Option μ} {xs : List μ}

/-- More fuel than bytes makes no difference. -/
theorem Framer.read_eq {fuel : Nat} (h : bs.length < fuel) : F.read fuel bs = F.readAll bs := by
  induction fuel using Nat.strongRecOn generalizing bs with
  | _ fuel ih =>
    obtain ⟨fuel, rfl⟩ := Nat.exists_eq_add_one_of_ne_zero (Nat.ne_of_gt (Nat.zero_lt_of_lt h))
    unfold Framer.readAll Framer.read
    cases hnext : F.next bs with
    | more => rfl
    | bad => rfl
    | frame n x =>
      have hpos := F.pos hnext
      have hle := F.le hnext
      have hlen : (bs.drop n).length < bs.length := by rw [List.length_drop]; omega
      dsimp only
      rw [ih fuel (Nat.lt_succ_self _) (by omega), ih bs.length h hlen]

theorem Framer.readAll_more (h : F.next bs = .more) : F.readAll bs = ([], false) := by
  unfold Framer.readAll Framer.read
  rw [h]

theorem Framer.readAll_bad (h : F.next bs = .bad) : F.readAll bs = ([], true) := by
  unfold Framer.readAll Framer.read
  rw [h]

theorem Framer.readAll_frame (h : F.next bs = .frame n x) : F.readAll bs =
    (x.toList ++ (F.readAll (bs.drop n)).1, (F.readAll (bs.drop n)).2) := by
  have hpos := F.pos h
  have hle := F.le h
  have hlen : (bs.drop n).length < bs.length := by rw [List.length_drop]; omega
  conv_lhs => unfold Framer.readAll Framer.read
  rw [h]
  dsimp only
  rw [Framer.read_eq hlen]

/-- More bytes add frames behind those that are there. -/
theorem Framer.readAll_mono (F : Framer β μ) (bs cs : List β) :
    (F.readAll bs).1 <+: (F.readAll (bs ++ cs)).1 := by
  induction hlen : bs.length using Nat.strongRecOn generalizing bs with
  | _ len ih =>
    cases hnext : F.next bs with
    | more => rw [Framer.readAll_more hnext]; exact List.nil_prefix
    | bad => rw [Framer.readAll_bad hnext]; exact List.nil_prefix
    | frame n x =>
      have hpos := F.pos hnext
      have hle := F.le hnext
      have hnext' : F.next (bs ++ cs) = .frame n x := by
        have hstable := F.stable hnext (bs.drop n ++ cs)
        rwa [← List.append_assoc, List.take_append_drop] at hstable
      rw [Framer.readAll_frame hnext, Framer.readAll_frame hnext',
        List.drop_append_of_le_length hle]
      refine (List.prefix_append_right_inj _).mpr (ih _ ?_ (bs.drop n) rfl)
      rw [List.length_drop]
      omega

/-- What is no frame stays where it is. -/
theorem Framer.readAll_bad_mono {F : Framer β μ} {bs : List β} (h : (F.readAll bs).2 = true)
    (cs : List β) : (F.readAll (bs ++ cs)).2 = true := by
  induction hlen : bs.length using Nat.strongRecOn generalizing bs with
  | _ len ih =>
    cases hnext : F.next bs with
    | more =>
      rw [Framer.readAll_more hnext] at h
      cases h
    | bad => rw [Framer.readAll_bad (F.bad_stable hnext cs)]
    | frame n x =>
      have hpos := F.pos hnext
      have hle := F.le hnext
      have hnext' : F.next (bs ++ cs) = .frame n x := by
        have hstable := F.stable hnext (bs.drop n ++ cs)
        rwa [← List.append_assoc, List.take_append_drop] at hstable
      rw [Framer.readAll_frame hnext] at h
      rw [Framer.readAll_frame hnext', List.drop_append_of_le_length hle]
      refine ih _ ?_ h rfl
      rw [List.length_drop]
      omega

/-! ## Whole frames -/

/-- Reading a list that starts with `bs` gives `xs`, and then what the rest gives. -/
def Framer.Whole (F : Framer β μ) (bs : List β) (xs : List μ) : Prop :=
  ∀ cs, F.readAll (bs ++ cs) = (xs ++ (F.readAll cs).1, (F.readAll cs).2)

theorem Framer.whole_nil : F.Whole [] [] := fun _ => rfl

theorem Framer.Whole.append {ys : List μ} (h : F.Whole bs xs) (h' : F.Whole cs ys) :
    F.Whole (bs ++ cs) (xs ++ ys) := by
  intro ds
  rw [List.append_assoc, h, h', List.append_assoc]

/-- The frame at the front of a list is whole. -/
theorem Framer.whole_frame (h : F.next bs = .frame n x) : F.Whole (bs.take n) x.toList := by
  intro cs
  have hlen : (bs.take n).length = n := List.length_take_of_le (F.le h)
  rw [Framer.readAll_frame (F.stable h cs), List.drop_left' hlen]

/-- All of a whole list is read. -/
theorem Framer.Whole.all (h : F.Whole bs xs) (hnil : F.next [] = .more) :
    F.readAll bs = (xs, false) := by
  have hall := h []
  rwa [List.append_nil, Framer.readAll_more hnil, List.append_nil] at hall

/-- A first part of a whole list gives the first contents, and nothing that is no frame. -/
theorem Framer.Whole.first (h : F.Whole bs xs) (hnil : F.next [] = .more) (hpre : cs <+: bs) :
    (F.readAll cs).1 <+: xs ∧ (F.readAll cs).2 = false := by
  obtain ⟨rest, rfl⟩ := hpre
  have hall := h.all hnil
  refine ⟨?_, ?_⟩
  · have hmono := F.readAll_mono cs rest
    rwa [hall] at hmono
  · by_contra hbad
    have hbad' := Framer.readAll_bad_mono (Bool.of_not_eq_false hbad) rest
    rw [hall] at hbad'
    cases hbad'

end LiteExchange.Lib
