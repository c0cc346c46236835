/-
  Where every slot of the arena is. All books of a floor thread their level lists through one
  arena; `Threads d fl v place` says that the threading is a partition. The ghost map `place`
  gives each slot one place: on the free stack, on one level list of one side of one book,
  held by the call in progress (the aggressor's slot inside `add_order`), or outside the
  arena. `v` gives the slot list of each level.

  * `threads_init`: a fresh floor.
  * `Threads.view_eq`: the lists can be read back by following the links.
  * `Threads.alloc`, `Threads.writeHeld`, `Threads.release`, `Threads.setLevel`: the four moves
    that `add_order` and `cancel_order` are made of. Each changes the place of one slot.
  * `IndexRep`: the occupancy bits and the cached best index of a side tell which levels are
    non-empty; `IndexRep.insert`, `IndexRep.advance` and `IndexRep.unset` keep it.
-/
import LiteExchange.Book.OrderBook

namespace LiteExchange.Book

open Lib Proto

/-- Where a slot is. -/
inductive Place where
  | free
  | held
  | level (b : Nat) (S : SideClass) (i : Nat)
  | outside
  deriving DecidableEq, Repr

/-- The slot list of every level of every side of every book. -/
def View : Type := Nat → SideClass → Nat → List Nat

/-- The view with one level's list replaced. -/
def View.set (v : View) (b : Nat) (S : SideClass) (i : Nat) (xs : List Nat) : View :=
  fun b' S' i' => if b' = b ∧ S' = S ∧ i' = i then xs else v b' S' i'

@[simp] theorem View.set_self (v : View) (b : Nat) (S : SideClass) (i : Nat) (xs : List Nat) :
    v.set b S i xs b S i = xs := if_pos ⟨rfl, rfl, rfl⟩

theorem View.set_of_ne (v : View) {b b' i i' : Nat} {S S' : SideClass} (xs : List Nat)
    (h : ¬ (b' = b ∧ S' = S ∧ i' = i)) : v.set b S i xs b' S' i' = v b' S' i' := if_neg h

theorem View.set_eq_self (v : View) (b : Nat) (S : SideClass) (i : Nat) :
    v.set b S i (v b S i) = v := by
  funext b' S' i'
  by_cases h : b' = b ∧ S' = S ∧ i' = i
  · obtain ⟨rfl, rfl, rfl⟩ := h
    exact v.set_self ..
  · exact v.set_of_ne _ h

/-- What a resting record satisfies on level `i` of side `S`. -/
structure RecordOk (bk : OrderBook) (S : SideClass) (i : Nat) (o : Order) : Prop where
  qty_pos : 0 < o.qty
  tif : o.tif ≠ TimeInForce.ioc
  side : o.side.cls = S
  idx_nonneg : 0 ≤ bk.priceToIdx o.price
  level : bk.levelOf o.price = i

/-- The arena is partitioned by `place`, and the level lists are threaded as `v` says. -/
structure Threads (d : Dims) (fl : Floor) (v : View) (place : Nat → Place) : Prop where
  top_le : fl.pool.freeTop ≤ d.N
  free_iff : ∀ s, place s = .free ↔ ∃ j < fl.pool.freeTop, fl.pool.freeList j = s
  free_inj : ∀ j < fl.pool.freeTop, ∀ k < fl.pool.freeTop,
    fl.pool.freeList j = fl.pool.freeList k → j = k
  outside_iff : ∀ s, place s = .outside ↔ d.N ≤ s
  queued : ∀ b S i s, s ∈ v b S i ↔ place s = .level b S i
  levels : ∀ b S i, i < d.L →
    LevelRep fl.pool.slots (((fl.books b).half S).levels i) (v b S i)
  records : ∀ b S i s, s ∈ v b S i → i < d.L ∧ RecordOk (fl.books b) S i (fl.pool.slots s)

/-- Slot numbers of the arena are below the sentinel. -/
theorem Dims.N_le_nullIdx (d : Dims) : d.N ≤ nullIdx := by
  have := d.maxOrders.toNat_lt
  simp only [Dims.N, nullIdx]
  omega

theorem Dims.L_fits (d : Dims) : d.L + 63 < 2 ^ 32 := d.words_fit

theorem Dims.L_lt_nullIdx (d : Dims) : d.L < nullIdx := by
  have := d.words_fit
  simp only [Dims.L, nullIdx]
  omega

section Basics

variable {d : Dims} {fl : Floor} {v : View} {place : Nat → Place}

theorem Threads.lt_of_place (h : Threads d fl v place) {s : Nat} (hs : place s ≠ .outside) :
    s < d.N := by
  by_contra hN
  exact hs ((h.outside_iff s).mpr (by omega))

theorem Threads.mem_lt (h : Threads d fl v place) {b i s : Nat} {S : SideClass}
    (hs : s ∈ v b S i) : s < d.N :=
  h.lt_of_place (by rw [(h.queued b S i s).mp hs]; exact Place.noConfusion)

theorem Threads.lt_L (h : Threads d fl v place) {b i : Nat} {S : SideClass}
    (hne : v b S i ≠ []) : i < d.L := by
  obtain ⟨s, hs⟩ := List.exists_mem_of_ne_nil _ hne
  exact (h.records b S i s hs).1

theorem threads_init (d : Dims) (basePrice tickSize : Int64) :
    Threads d (Floor.init d.N basePrice tickSize) (fun _ _ _ => [])
      (fun s => if s < d.N then .free else .outside) where
  top_le := Nat.le_refl _
  free_iff := fun s => by
    by_cases hs : s < d.N <;> simp [hs, Floor.init, Pool.init]
  free_inj := fun j _ k _ h => h
  outside_iff := fun s => by by_cases hs : s < d.N <;> simp [hs]; omega
  queued := fun b S i s => by by_cases hs : s < d.N <;> simp [hs]
  levels := fun b S i _ => by cases S <;> exact levelRep_init _
  records := fun b S i s hs => absurd hs List.not_mem_nil

/-- The slots of a level, read off by following the links from its head. -/
def Floor.queue (d : Dims) (fl : Floor) : View := fun b S i =>
  if i < d.L then
    walk (nexts fl.pool.slots) nullIdx d.N (((fl.books b).half S).levels i).headIdx
  else []

/-- The lists of a threaded floor are the ones its links spell out. -/
theorem Threads.view_eq (h : Threads d fl v place) : v = fl.queue d := by
  funext b S i
  by_cases hi : i < d.L
  · have hrep := h.levels b S i hi
    have hlen : (v b S i).length ≤ d.N := by
      have hsub : v b S i ⊆ List.range d.N := fun s hs => List.mem_range.mpr (h.mem_lt hs)
      simpa using (hrep.links.nodup.subperm hsub).length_le
    rw [Floor.queue, if_pos hi, hrep.head, walk_dlist hrep.links hlen]
  · rw [Floor.queue, if_neg hi]
    by_contra hne
    exact hi (h.lt_L hne)

/-- So are the places of its slots. -/
theorem Threads.place_eq {v' : View} {place' : Nat → Place} (h : Threads d fl v place)
    (h' : Threads d fl v' place') : place' = place := by
  have hv : v' = v := h'.view_eq.trans h.view_eq.symm
  funext s
  cases hp : place s with
  | free => exact (h'.free_iff s).mpr ((h.free_iff s).mp hp)
  | outside => exact (h'.outside_iff s).mpr ((h.outside_iff s).mp hp)
  | level b S i =>
    rw [← h'.queued, hv, h.queued]
    exact hp
  | held =>
    cases hp' : place' s with
    | held => rfl
    | free => rw [(h.free_iff s).mpr ((h'.free_iff s).mp hp')] at hp; cases hp
    | outside => rw [(h.outside_iff s).mpr ((h'.outside_iff s).mp hp')] at hp; cases hp
    | level b S i =>
      rw [← h'.queued, hv, h.queued, hp] at hp'
      cases hp'

end Basics

/-! ## The four moves -/

/-- The place map with one slot moved. -/
def move (place : Nat → Place) (s : Nat) (p : Place) : Nat → Place := Function.update place s p

theorem move_self (place : Nat → Place) (s : Nat) (p : Place) : move place s p s = p :=
  Function.update_self ..

theorem move_of_ne (place : Nat → Place) {s t : Nat} (p : Place) (h : t ≠ s) :
    move place s p t = place t := Function.update_of_ne h ..

/-- Moving a slot that is on no level list, to a place that is none, leaves all lists alone. -/
theorem move_level_iff {place : Nat → Place} {s : Nat} {p q : Place} (hs : place s = p)
    (hp : ∀ b S i, p ≠ .level b S i) (hq : ∀ b S i, q ≠ .level b S i)
    (t b : Nat) (S : SideClass) (i : Nat) :
    move place s q t = .level b S i ↔ place t = .level b S i := by
  by_cases h : t = s
  · subst h
    rw [move_self, hs]
    exact ⟨fun h => absurd h (hq b S i), fun h => absurd h (hp b S i)⟩
  · rw [move_of_ne _ _ h]

section Moves

variable {d : Dims} {fl : Floor} {v : View} {place : Nat → Place}

/-- `alloc`: the top of the free stack becomes held. -/
theorem Threads.alloc (h : Threads d fl v place) (hpos : 0 < fl.pool.freeTop) :
    place fl.pool.top = .free ∧
    Threads d { fl with pool := { fl.pool with freeTop := fl.pool.freeTop - 1 } } v
      (move place fl.pool.top .held) := by
  obtain ⟨s, hs⟩ : ∃ s, fl.pool.top = s := ⟨_, rfl⟩
  have hfree : place s = .free := (h.free_iff s).mpr ⟨fl.pool.freeTop - 1, by omega, hs⟩
  have hlev := move_level_iff hfree (by simp) (q := .held) (by simp)
  rw [hs]
  refine ⟨hfree, ?_, ?_, ?_, ?_, ?_, h.levels, h.records⟩
  · have := h.top_le
    dsimp only
    omega
  · intro t
    dsimp only
    by_cases ht : t = s
    · rw [ht, move_self]
      refine ⟨Place.noConfusion, fun ⟨j, hj, hjs⟩ => ?_⟩
      have := h.free_inj j (by omega) (fl.pool.freeTop - 1) (by omega) (hjs.trans hs.symm)
      omega
    · rw [move_of_ne _ _ ht, h.free_iff]
      constructor
      · rintro ⟨j, hj, hjt⟩
        refine ⟨j, ?_, hjt⟩
        have : j ≠ fl.pool.freeTop - 1 := fun e => ht (by rw [← hjt, e]; exact hs)
        omega
      · rintro ⟨j, hj, hjt⟩
        exact ⟨j, by omega, hjt⟩
  · intro j hj k hk
    dsimp only at hj hk
    exact h.free_inj j (by omega) k (by omega)
  · intro t
    by_cases ht : t = s
    · rw [ht, move_self]
      refine ⟨Place.noConfusion, fun hN => ?_⟩
      rw [(h.outside_iff s).mpr hN] at hfree
      cases hfree
    · rw [move_of_ne _ _ ht, h.outside_iff]
  · intro b S i t
    rw [hlev, h.queued]

/-- Writing the record and the owner of a held slot. -/
theorem Threads.writeHeld (h : Threads d fl v place) {s : Nat} (hs : place s = .held) (o : Order)
    (session : Nat → UInt32) :
    Threads d { fl with pool := { fl.pool with slots := Function.update fl.pool.slots s o },
                        session := session } v place := by
  have hne : ∀ b S i t, t ∈ v b S i → t ≠ s := by
    rintro b S i t ht rfl
    rw [h.queued, hs] at ht
    cases ht
  refine ⟨h.top_le, h.free_iff, h.free_inj, h.outside_iff, h.queued, ?_, ?_⟩
  · intro b S i hi
    refine levelRep_congr (fun t ht => ?_) (h.levels b S i hi)
    dsimp only
    rw [Function.update_of_ne (hne b S i t ht)]
    exact ⟨rfl, rfl, rfl⟩
  · intro b S i t ht
    dsimp only
    rw [Function.update_of_ne (hne b S i t ht)]
    exact h.records b S i t ht

/-- A floor whose arena has a slot in use has room on the free stack. -/
theorem Threads.top_lt (h : Threads d fl v place) {s : Nat} (hN : s < d.N)
    (hs : place s ≠ .free) : fl.pool.freeTop < d.N := by
  -- the free slots are an injective image of `freeTop` positions that misses `s`
  have hmap : Set.MapsTo fl.pool.freeList (Finset.range fl.pool.freeTop)
      ((Finset.range d.N).erase s) := by
    intro j hj
    have hj' : j < fl.pool.freeTop := by simpa using hj
    have hfree := (h.free_iff (fl.pool.freeList j)).mpr ⟨j, hj', rfl⟩
    have hlt := h.lt_of_place (s := fl.pool.freeList j) (by rw [hfree]; exact Place.noConfusion)
    simp only [Finset.coe_erase, Finset.coe_range, Set.mem_sdiff, Set.mem_Iio,
      Set.mem_singleton_iff]
    exact ⟨hlt, fun e => hs (e ▸ hfree)⟩
  have hinj : Set.InjOn fl.pool.freeList (Finset.range fl.pool.freeTop) := by
    intro j hj k hk e
    exact h.free_inj j (by simpa using hj) k (by simpa using hk) e
  have hcard := Finset.card_le_card_of_injOn _ hmap hinj
  rw [Finset.card_range, Finset.card_erase_of_mem (by simpa using hN), Finset.card_range] at hcard
  omega

/-- `free` of a held slot. -/
theorem Threads.release (h : Threads d fl v place) {s : Nat} (hs : place s = .held) :
    fl.pool.free d.N s = .ok (fl.pool.freed s) ∧
    Threads d { fl with pool := fl.pool.freed s } v (move place s .free) := by
  have hN : s < d.N := h.lt_of_place (by rw [hs]; exact Place.noConfusion)
  have htop : fl.pool.freeTop < d.N := h.top_lt hN (by rw [hs]; exact Place.noConfusion)
  have hlev := move_level_iff hs (by simp) (q := .free) (by simp)
  have hold : ∀ j < fl.pool.freeTop, fl.pool.freeList j ≠ s := fun j hj e => by
    have := (h.free_iff s).mpr ⟨j, hj, e⟩
    rw [hs] at this
    cases this
  refine ⟨Pool.free_of_lt hN htop, htop, ?_, ?_, ?_, ?_, h.levels, h.records⟩
  · intro t
    dsimp only [Pool.freed]
    by_cases ht : t = s
    · rw [ht, move_self]
      exact ⟨fun _ => ⟨fl.pool.freeTop, by omega, Function.update_self ..⟩, fun _ => rfl⟩
    · rw [move_of_ne _ _ ht, h.free_iff]
      constructor
      · rintro ⟨j, hj, hjt⟩
        exact ⟨j, by omega, by rw [Function.update_of_ne (by omega), hjt]⟩
      · rintro ⟨j, hj, hjt⟩
        by_cases he : j = fl.pool.freeTop
        · rw [he, Function.update_self] at hjt
          exact absurd hjt.symm ht
        · rw [Function.update_of_ne he] at hjt
          exact ⟨j, by omega, hjt⟩
  · intro j hj k hk e
    dsimp only [Pool.freed] at hj hk e
    by_cases hj' : j = fl.pool.freeTop <;> by_cases hk' : k = fl.pool.freeTop
    · rw [hj', hk']
    · rw [hj', Function.update_self, Function.update_of_ne hk'] at e
      exact absurd e.symm (hold k (by omega))
    · rw [hk', Function.update_self, Function.update_of_ne hj'] at e
      exact absurd e (hold j (by omega))
    · rw [Function.update_of_ne hj', Function.update_of_ne hk'] at e
      exact h.free_inj j (by omega) k (by omega) e
  · intro t
    by_cases ht : t = s
    · rw [ht, move_self]
      exact ⟨Place.noConfusion, fun hge => absurd hN (by omega)⟩
    · rw [move_of_ne _ _ ht, h.outside_iff]
  · intro b S i t
    rw [hlev, h.queued]

/-- The floor with one level of one side, and the records, replaced. -/
def Floor.setLevel (fl : Floor) (b : Nat) (S : SideClass) (i : Nat) (l : PriceLevel)
    (slots : Nat → Order) : Floor :=
  { fl with
    pool := { fl.pool with slots := slots }
    books := Function.update fl.books b ((fl.books b).setHalf S
      { (fl.books b).half S with levels := Function.update ((fl.books b).half S).levels i l }) }

/-- Replacing the list of one level. The records of every other list are as before; slots only
    move between this list and the held place. -/
theorem Threads.setLevel (h : Threads d fl v place) {b i : Nat} {S : SideClass} (hi : i < d.L)
    {slots : Nat → Order} {l : PriceLevel} {xs : List Nat} {place' : Nat → Place}
    (hrep : LevelRep slots l xs)
    (hframe : ∀ s b' S' i', place s = .level b' S' i' → ¬ (b' = b ∧ S' = S ∧ i' = i) →
      slots s = fl.pool.slots s)
    (hrec : ∀ s ∈ xs, RecordOk (fl.books b) S i (slots s))
    (hhere : ∀ s, s ∈ xs ↔ place' s = .level b S i)
    (hthere : ∀ s, place' s = place s ∨ (place s = .level b S i ∧ place' s = .held) ∨
      (place s = .held ∧ place' s = .level b S i)) :
    Threads d (fl.setLevel b S i l slots) (v.set b S i xs) place' := by
  have hother : ∀ s b' S' i', ¬ (b' = b ∧ S' = S ∧ i' = i) →
      (place' s = .level b' S' i' ↔ place s = .level b' S' i') := by
    intro s b' S' i' hne
    rcases hthere s with e | ⟨e1, e2⟩ | ⟨e1, e2⟩
    · rw [e]
    · rw [e1, e2]
      exact ⟨fun h => Place.noConfusion h, fun h => by cases h; exact absurd ⟨rfl, rfl, rfl⟩ hne⟩
    · rw [e1, e2]
      exact ⟨fun h => by cases h; exact absurd ⟨rfl, rfl, rfl⟩ hne, fun h => Place.noConfusion h⟩
  have hfree : ∀ s, place' s = .free ↔ place s = .free := fun s => by
    rcases hthere s with e | ⟨e1, e2⟩ | ⟨e1, e2⟩
    · rw [e]
    · simp [e1, e2]
    · simp [e1, e2]
  have hout : ∀ s, place' s = .outside ↔ place s = .outside := fun s => by
    rcases hthere s with e | ⟨e1, e2⟩ | ⟨e1, e2⟩
    · rw [e]
    · simp [e1, e2]
    · simp [e1, e2]
  refine ⟨h.top_le, fun s => (hfree s).trans (h.free_iff s), h.free_inj,
    fun s => (hout s).trans (h.outside_iff s), ?_, ?_, ?_⟩
  · intro b' S' i' s
    by_cases he : b' = b ∧ S' = S ∧ i' = i
    · obtain ⟨rfl, rfl, rfl⟩ := he
      rw [View.set_self]
      exact hhere s
    · rw [v.set_of_ne _ he, hother s b' S' i' he, h.queued]
  · intro b' S' i' hi'
    by_cases he : b' = b ∧ S' = S ∧ i' = i
    · obtain ⟨rfl, rfl, rfl⟩ := he
      simpa [Floor.setLevel] using hrep
    · have hold : LevelRep slots (((fl.books b').half S').levels i') (v b' S' i') := by
        refine levelRep_congr (fun s hs => ?_) (h.levels b' S' i' hi')
        rw [hframe s b' S' i' ((h.queued b' S' i' s).mp hs) he]
        exact ⟨rfl, rfl, rfl⟩
      rw [v.set_of_ne _ he]
      by_cases hb : b' = b
      · subst hb
        by_cases hS : S' = S
        · subst hS
          have hne : i' ≠ i := fun e => he ⟨rfl, rfl, e⟩
          simpa [Floor.setLevel, Function.update_of_ne hne] using hold
        · simpa [Floor.setLevel, OrderBook.half_setHalf_of_ne _ _ hS] using hold
      · simpa [Floor.setLevel, Function.update_of_ne hb] using hold
  · intro b' S' i' s hs
    by_cases he : b' = b ∧ S' = S ∧ i' = i
    · obtain ⟨rfl, rfl, rfl⟩ := he
      rw [View.set_self] at hs
      obtain ⟨h1, h2, h3, h4, h5⟩ := hrec s hs
      exact ⟨hi, h1, h2, h3, by simpa [Floor.setLevel] using h4, by simpa [Floor.setLevel] using h5⟩
    · rw [v.set_of_ne _ he] at hs
      obtain ⟨hlt, h1, h2, h3, h4, h5⟩ := h.records b' S' i' s hs
      have hsl : slots s = fl.pool.slots s :=
        hframe s b' S' i' ((h.queued b' S' i' s).mp hs) he
      rw [← hsl] at h1 h2 h3 h4 h5
      refine ⟨hlt, h1, h2, h3, ?_, ?_⟩
      · by_cases hb : b' = b
        · subst hb; simpa [Floor.setLevel] using h4
        · simpa [Floor.setLevel, Function.update_of_ne hb] using h4
      · by_cases hb : b' = b
        · subst hb; simpa [Floor.setLevel] using h5
        · simpa [Floor.setLevel, Function.update_of_ne hb] using h5

/-- The floor during a call on book `b` that has reached the given arena and side `T`. -/
def Floor.during (fl : Floor) (session : Nat → UInt32) (b : Nat) (T : SideClass) (pool : Pool)
    (opp : Half) : Floor :=
  ⟨pool, session, Function.update fl.books b ((fl.books b).setHalf T opp)⟩

theorem during_setLevel (fl : Floor) (session : Nat → UInt32) (b : Nat) (T : SideClass)
    (pool : Pool) (opp : Half) (i : Nat) (l : PriceLevel) (slots : Nat → Order) :
    (fl.during session b T pool opp).setLevel b T i l slots =
      fl.during session b T { pool with slots := slots }
        { opp with levels := Function.update opp.levels i l } := by
  have hset : ∀ h h' : Half, ((fl.books b).setHalf T h).setHalf T h' = (fl.books b).setHalf T h' :=
    fun h h' => by cases T <;> rfl
  simp only [Floor.during, Floor.setLevel, Function.update_self, Function.update_idem,
    OrderBook.half_setHalf, hset]

/-- The threading does not depend on the index of a side. -/
theorem Threads.reindex_during {session : Nat → UInt32} {b : Nat} {S : SideClass} {pool : Pool}
    {h h' : Half} (ht : Threads d (fl.during session b S pool h) v place)
    (hl : h'.levels = h.levels) : Threads d (fl.during session b S pool h') v place := by
  obtain ⟨h1, h2, h3, h4, h5, h6, h7⟩ := ht
  refine ⟨h1, h2, h3, h4, h5, fun b' S' i' hi' => ?_, fun b' S' i' s hs => ?_⟩
  · have := h6 b' S' i' hi'
    by_cases hb : b' = b
    · subst hb
      by_cases hS : S' = S
      · subst hS
        simpa [Floor.during, hl] using this
      · simpa [Floor.during, OrderBook.half_setHalf_of_ne _ _ hS] using this
    · simpa [Floor.during, Function.update_of_ne hb] using this
  · obtain ⟨hlt, r1, r2, r3, r4, r5⟩ := h7 b' S' i' s hs
    by_cases hb : b' = b
    · subst hb
      exact ⟨hlt, r1, r2, r3, by simpa [Floor.during] using r4, by simpa [Floor.during] using r5⟩
    · refine ⟨hlt, r1, r2, r3, ?_, ?_⟩
      · simpa [Floor.during, Function.update_of_ne hb] using r4
      · simpa [Floor.during, Function.update_of_ne hb] using r5

end Moves

/-! ## The index of a side -/

/-- `r` is the best of the levels with `P` on side `S`, or the sentinel when there is none. -/
def BestOf (S : SideClass) (P : Nat → Prop) (r : Nat) : Prop :=
  (P r ∧ ∀ j, P j → ¬ ahead S j r) ∨ (r = nullIdx ∧ ∀ j, ¬ P j)

/-- Occupancy bits and cached best index tell which levels have `P`. -/
structure IndexRep (L : Nat) (S : SideClass) (h : Half) (P : Nat → Prop) : Prop where
  occ : ∀ j, bit h.occ j = true ↔ P j
  best : BestOf S P h.bestIdx
  lt : ∀ j, P j → j < L

theorem indexRep_init (L : Nat) (S : SideClass) : IndexRep L S Half.init fun _ => False :=
  ⟨fun j => by simp [Half.init, bit_init], Or.inr ⟨rfl, fun _ => id⟩, fun _ h => h.elim⟩

theorem BestOf.congr {S : SideClass} {P Q : Nat → Prop} {r : Nat} (h : BestOf S P r)
    (hPQ : ∀ j, P j ↔ Q j) : BestOf S Q r := by
  have : P = Q := funext fun j => propext (hPQ j)
  exact this ▸ h

theorem IndexRep.congr {L : Nat} {S : SideClass} {h : Half} {P Q : Nat → Prop}
    (hr : IndexRep L S h P) (hPQ : ∀ j, P j ↔ Q j) : IndexRep L S h Q := by
  have : P = Q := funext fun j => propext (hPQ j)
  exact this ▸ hr

theorem IndexRep.of_eq {L : Nat} {S : SideClass} {h h' : Half} {P : Nat → Prop}
    (hr : IndexRep L S h P) (hb : h'.bestIdx = h.bestIdx) (ho : h'.occ = h.occ) :
    IndexRep L S h' P :=
  ⟨by rw [ho]; exact hr.occ, by rw [hb]; exact hr.best, hr.lt⟩

section Index

variable {d : Dims} {S : SideClass} {h : Half} {P : Nat → Prop} {i : Nat}

theorem IndexRep.best_iff (hr : IndexRep d.L S h P) : h.bestIdx ≠ nullIdx ↔ ∃ j, P j := by
  rcases hr.best with ⟨hp, -⟩ | ⟨he, hn⟩
  · have := hr.lt _ hp
    have := d.L_lt_nullIdx
    exact ⟨fun _ => ⟨_, hp⟩, fun _ => by omega⟩
  · exact ⟨fun hne => absurd he hne, fun ⟨j, hj⟩ => absurd hj (hn j)⟩

/-- The nearest occupied level behind an emptied best level is the new best level. -/
theorem bestOf_advance (hr : IndexRep d.L S h P) (hi : h.bestIdx = i) (hP : P i)
    {occ : LevelBitmap} (hocc : ∀ j, bit occ j = (bit h.occ j && decide (j ≠ i))) :
    ∃ r, advance d.L S { h with occ := occ } i = .ok r ∧ BestOf S (fun j => P j ∧ j ≠ i) r := by
  have hbits : ∀ j, bit occ j = true ↔ P j ∧ j ≠ i := fun j => by
    rw [hocc, Bool.and_eq_true, hr.occ, decide_eq_true_eq]
  have hlt : ∀ j, bit occ j = true → j < d.L := fun j hj => hr.lt j ((hbits j).mp hj).1
  have hahead : ∀ j, P j → ¬ ahead S j i := by
    rcases hr.best with ⟨-, hb⟩ | ⟨-, hn⟩
    · rw [hi] at hb; exact hb
    · exact absurd hP (hn i)
  cases S with
  | ask =>
    obtain ⟨r, hrun, hspec⟩ := nextUp_spec d.L_fits hlt (i + 1)
    refine ⟨r, hrun, ?_⟩
    rcases hspec with ⟨h1, -, h3⟩ | ⟨h1, h2⟩
    · refine Or.inl ⟨(hbits r).mp h1, fun j hj hlt => ?_⟩
      have h4 := hahead j hj.1
      simp only [ahead] at h4 hlt
      have hge : i + 1 ≤ j := by have := hj.2; omega
      exact h3 j hge hlt ((hbits j).mpr hj)
    · refine Or.inr ⟨h1, fun j hj => ?_⟩
      have h4 := hahead j hj.1
      simp only [ahead] at h4
      have hge : i + 1 ≤ j := by have := hj.2; omega
      exact h2 j hge ((hbits j).mpr hj)
  | bid =>
    unfold advance
    by_cases hpos : 0 < i
    · obtain ⟨r, hrun, hspec⟩ := nextDown_spec d.L_fits occ
        (show i - 1 < d.L by have := hr.lt i hP; omega)
      refine ⟨r, by rw [if_pos hpos]; exact hrun, ?_⟩
      rcases hspec with ⟨h1, -, h3⟩ | ⟨h1, h2⟩
      · refine Or.inl ⟨(hbits r).mp h1, fun j hj hlt => ?_⟩
        have h4 := hahead j hj.1
        simp only [ahead] at h4 hlt
        have hle : j ≤ i - 1 := by have := hj.2; omega
        exact h3 j hle hlt ((hbits j).mpr hj)
      · refine Or.inr ⟨h1, fun j hj => ?_⟩
        have h4 := hahead j hj.1
        simp only [ahead] at h4
        have hle : j ≤ i - 1 := by have := hj.2; omega
        exact h2 j hle ((hbits j).mpr hj)
    · refine ⟨nullIdx, if_neg hpos, Or.inr ⟨rfl, fun j hj => ?_⟩⟩
      have h4 := hahead j hj.1
      simp only [ahead] at h4
      have := hj.2
      omega

/-- Dropping a level that is not the best leaves the best. -/
theorem bestOf_drop (hb : BestOf S P h.bestIdx) (hi : h.bestIdx ≠ i) :
    BestOf S (fun j => P j ∧ j ≠ i) h.bestIdx := by
  rcases hb with ⟨h1, h2⟩ | ⟨h1, h2⟩
  · exact Or.inl ⟨⟨h1, hi⟩, fun j hj => h2 j hj.1⟩
  · exact Or.inr ⟨h1, fun j hj => h2 j hj.1⟩

/-- The best level once `i` is occupied. -/
theorem bestOf_insert (hr : IndexRep d.L S h P) :
    BestOf S (fun j => P j ∨ j = i)
      (if h.bestIdx = nullIdx ∨ ahead S i h.bestIdx then i else h.bestIdx) := by
  rcases hr.best with ⟨h1, h2⟩ | ⟨h1, h2⟩
  · have hne : h.bestIdx ≠ nullIdx := (hr.best_iff).mpr ⟨_, h1⟩
    by_cases ha : ahead S i h.bestIdx
    · rw [if_pos (Or.inr ha)]
      refine Or.inl ⟨Or.inr rfl, fun j hj hji => ?_⟩
      rcases hj with hj | rfl
      · have := h2 j hj
        cases S <;> simp only [ahead] at * <;> omega
      · cases S <;> simp only [ahead] at hji <;> omega
    · rw [if_neg (by simp [hne, ha])]
      refine Or.inl ⟨Or.inl h1, fun j hj hji => ?_⟩
      rcases hj with hj | rfl
      · exact h2 j hj hji
      · exact ha hji
  · rw [if_pos (Or.inl h1)]
    refine Or.inl ⟨Or.inr rfl, fun j hj hji => ?_⟩
    rcases hj with hj | rfl
    · exact h2 j hj
    · cases S <;> simp only [ahead] at hji <;> omega

end Index

/-- The indices of a floor after one side has changed. -/
theorem indexRep_during {d : Dims} {fl : Floor} {v v' : View} {session : Nat → UInt32} {b : Nat}
    {S : SideClass} {pool : Pool} {h : Half}
    (hix : ∀ b S, IndexRep d.L S ((fl.books b).half S) fun i => v b S i ≠ [])
    (hh : IndexRep d.L S h fun i => v' b S i ≠ [])
    (hv : ∀ b' S' i', ¬ (b' = b ∧ S' = S) → v' b' S' i' = v b' S' i') (b' : Nat) (S' : SideClass) :
    IndexRep d.L S' (((fl.during session b S pool h).books b').half S') fun i =>
      v' b' S' i ≠ [] := by
  by_cases he : b' = b ∧ S' = S
  · obtain ⟨rfl, rfl⟩ := he
    simpa [Floor.during] using hh
  · have hrep := (hix b' S').congr fun i => by rw [← hv b' S' i he]
    by_cases hb : b' = b
    · subst hb
      have hS : S' ≠ S := fun e => he ⟨rfl, e⟩
      simpa [Floor.during, OrderBook.half_setHalf_of_ne _ _ hS] using hrep
    · simpa [Floor.during, Function.update_of_ne hb] using hrep

/-- Threads and index of a whole floor. -/
structure FloorRep (d : Dims) (fl : Floor) (v : View) (place : Nat → Place) : Prop where
  threads : Threads d fl v place
  index : ∀ b S, IndexRep d.L S ((fl.books b).half S) fun i => v b S i ≠ []

theorem floorRep_init (d : Dims) (basePrice tickSize : Int64) :
    FloorRep d (Floor.init d.N basePrice tickSize) (fun _ _ _ => [])
      (fun s => if s < d.N then .free else .outside) where
  threads := threads_init d basePrice tickSize
  index := fun b S => by
    have hh : ((Floor.init d.N basePrice tickSize).books b).half S = Half.init := by cases S <;> rfl
    rw [hh]
    exact (indexRep_init d.L S).congr fun j => by simp

end LiteExchange.Book
