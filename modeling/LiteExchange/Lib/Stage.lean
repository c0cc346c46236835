/-
  Pipelines of bounded queues. A machine answers every input with a list of outputs; `serve` is
  its answer to a list of inputs. A `Stage` is such a machine as a thread between two queues of
  `n` places. In a loop, as long as it may go on, it looks for an input and puts the outputs for it
  into the outbox one at a time, waiting while the outbox is full. Others offer inputs, take
  outputs, or tell it to stop.

  * `Serves`: what was taken from the outbox, what is in it and what waits are together the answer
    to the inputs taken from the inbox. Every action keeps this.
  * `fair_rounds`: a measure that no action raises, and that one action out of a fair set lowers,
    goes down with every round in which all of the set happen.
  * `Stage.answered`: by this rule, a stage that is served in rounds answers all that is in its
    inbox in a number of rounds that does not depend on what is offered meanwhile.
-/
import LiteExchange.Lib.Checked

namespace LiteExchange.Lib

variable {σ α β : Type}

/-! ## Machines with outputs -/

/-- The state after a list of inputs, and the answers to all of them in order. -/
def serve (f : σ → α → Except Fault (σ × List β)) : σ → List α → Except Fault (σ × List β)
  | s, [] => .ok (s, [])
  | s, a :: as => do
    let (t, bs) ← f s a
    let (u, cs) ← serve f t as
    return (u, bs ++ cs)

section Serve

variable {f : σ → α → Except Fault (σ × List β)}

theorem serve_append {s t : σ} {as : List α} {bs : List β} (h : serve f s as = .ok (t, bs))
    (as' : List α) :
    serve f s (as ++ as') = serve f t as' >>= fun r => .ok (r.1, bs ++ r.2) := by
  induction as generalizing s bs with
  | nil =>
    cases h
    rw [List.nil_append]
    cases serve f t as' <;> rfl
  | cons a as ih =>
    obtain ⟨⟨t₁, bs₁⟩, hstep, h⟩ := bind_eq_ok h
    obtain ⟨⟨t₂, bs₂⟩, hrest, h⟩ := bind_eq_ok h
    cases h
    rw [List.cons_append, serve, hstep, ok_bind]
    dsimp only
    rw [ih hrest]
    cases serve f t as' with
    | error e => rfl
    | ok r =>
      simp only [ok_bind, List.append_assoc]
      rfl

theorem serve_snoc {s t u : σ} {as : List α} {a : α} {bs cs : List β}
    (h : serve f s as = .ok (t, bs)) (ha : f t a = .ok (u, cs)) :
    serve f s (as ++ [a]) = .ok (u, bs ++ cs) := by
  rw [serve_append h, serve, ha, ok_bind]
  dsimp only [serve]
  simp only [ok_bind, pure_eq_ok, List.append_nil]

/-- The answers to the first inputs come first. -/
theorem serve_mono {s u : σ} {as as' : List α} {cs : List β}
    (h : serve f s (as ++ as') = .ok (u, cs)) :
    ∃ t bs, serve f s as = .ok (t, bs) ∧ bs <+: cs := by
  induction as generalizing s cs with
  | nil => exact ⟨s, [], rfl, List.nil_prefix⟩
  | cons a as ih =>
    obtain ⟨⟨t₁, bs₁⟩, hstep, h⟩ := bind_eq_ok h
    obtain ⟨⟨t₂, bs₂⟩, hrest, h⟩ := bind_eq_ok h
    cases h
    obtain ⟨t, bs, hserve, hpre⟩ := ih hrest
    refine ⟨t, bs₁ ++ bs, ?_, (List.prefix_append_right_inj _).mpr hpre⟩
    rw [serve, hstep, ok_bind]
    dsimp only
    rw [hserve]
    rfl

end Serve

/-! ## Stages -/

/-- The machine, or the fault it has had; whether the thread may go on, and whether it has seen that
    it may and looks for an input next; the outputs it has to hand on; its queues; and what has been
    taken from the inbox and from the outbox so far. -/
structure Stage (σ α β : Type) where
  state : Except Fault σ
  running : Bool
  entered : Bool
  pending : List β
  inbox : List α
  outbox : List β
  taken : List α
  given : List β

def Stage.init (s : σ) : Stage σ α β := ⟨.ok s, true, false, [], [], [], [], []⟩

/-- What happens to a stage: an input is offered, the thread takes a step, an output is taken, the
    thread is told to stop. -/
inductive StageAct (α : Type) where
  | offer (a : α)
  | work
  | take
  | stop
  deriving DecidableEq

/-- The thread looks for an input, and answers it if there is one. -/
def Stage.look (f : σ → α → Except Fault (σ × List β)) (st : Stage σ α β) (s : σ) :
    Stage σ α β :=
  match st.inbox with
  | [] => { st with entered := false }
  | a :: as =>
    match f s a with
    | .ok (t, bs) =>
      { st with
        state := .ok t, entered := false, pending := bs, inbox := as, taken := st.taken ++ [a] }
    | .error e =>
      { st with state := .error e, entered := false, inbox := as, taken := st.taken ++ [a] }

/-- A step of the thread. -/
def Stage.work (f : σ → α → Except Fault (σ × List β)) (n : Nat) (st : Stage σ α β) :
    Stage σ α β :=
  match st.pending with
  | b :: bs =>
    if st.outbox.length < n then { st with outbox := st.outbox ++ [b], pending := bs } else st
  | [] =>
    match st.state, st.entered with
    | .error _, _ => st
    | .ok _, false => { st with entered := st.running }
    | .ok s, true => st.look f s

def Stage.step (f : σ → α → Except Fault (σ × List β)) (n : Nat) (st : Stage σ α β) :
    StageAct α → Stage σ α β
  | .offer a => if st.inbox.length < n then { st with inbox := st.inbox ++ [a] } else st
  | .work => st.work f n
  | .take =>
    match st.outbox with
    | [] => st
    | b :: bs => { st with outbox := bs, given := st.given ++ [b] }
  | .stop => { st with running := false }

def Stage.run (f : σ → α → Except Fault (σ × List β)) (n : Nat) (st : Stage σ α β)
    (acts : List (StageAct α)) : Stage σ α β := acts.foldl (Stage.step f n) st

section Stage

variable {f : σ → α → Except Fault (σ × List β)} {n : Nat} {st : Stage σ α β} {s₀ : σ}

theorem Stage.work_test {s : σ} (hp : st.pending = []) (hs : st.state = .ok s)
    (he : st.entered = false) : st.work f n = { st with entered := st.running } := by
  unfold Stage.work
  rw [hp, hs, he]

theorem Stage.work_look {s : σ} (hp : st.pending = []) (hs : st.state = .ok s)
    (he : st.entered = true) : st.work f n = st.look f s := by
  unfold Stage.work
  rw [hp, hs, he]

theorem Stage.work_dead {e : Fault} (hp : st.pending = []) (hs : st.state = .error e) :
    st.work f n = st := by
  unfold Stage.work
  rw [hp, hs]

/-- What a step of the thread can be: an output is handed on or has to wait; the test of the loop;
    an input is answered, or faults, or there is none; nothing, after a fault. -/
inductive Stage.Works (f : σ → α → Except Fault (σ × List β)) (n : Nat) (st : Stage σ α β) :
    Stage σ α β → Prop where
  | hand {b : β} {bs : List β} (hp : st.pending = b :: bs) (room : st.outbox.length < n) :
      Works f n st { st with outbox := st.outbox ++ [b], pending := bs }
  | wait (hp : st.pending ≠ []) (full : n ≤ st.outbox.length) : Works f n st st
  | enter {s : σ} (hp : st.pending = []) (hs : st.state = .ok s) (he : st.entered = false) :
      Works f n st { st with entered := st.running }
  | answer {s t : σ} {a : α} {as : List α} {bs : List β} (hp : st.pending = [])
      (hs : st.state = .ok s) (he : st.entered = true) (hin : st.inbox = a :: as)
      (hf : f s a = .ok (t, bs)) :
      Works f n st { st with
        state := .ok t, entered := false, pending := bs, inbox := as, taken := st.taken ++ [a] }
  | fault {s : σ} {e : Fault} {a : α} {as : List α} (hp : st.pending = [])
      (hs : st.state = .ok s) (he : st.entered = true) (hin : st.inbox = a :: as)
      (hf : f s a = .error e) :
      Works f n st
        { st with state := .error e, entered := false, inbox := as, taken := st.taken ++ [a] }
  | miss {s : σ} (hp : st.pending = []) (hs : st.state = .ok s) (he : st.entered = true)
      (hin : st.inbox = []) : Works f n st { st with entered := false }
  | dead {e : Fault} (hp : st.pending = []) (hs : st.state = .error e) : Works f n st st

theorem Stage.works (f : σ → α → Except Fault (σ × List β)) (n : Nat) (st : Stage σ α β) :
    st.Works f n (st.work f n) := by
  cases hp : st.pending with
  | cons b bs =>
    unfold Stage.work
    rw [hp]
    dsimp only
    split
    · exact .hand hp ‹_›
    · exact .wait (by rw [hp]; nofun) (Nat.le_of_not_lt ‹_›)
  | nil =>
    cases hs : st.state with
    | error e =>
      rw [Stage.work_dead hp hs]
      exact .dead hp hs
    | ok s =>
      cases he : st.entered with
      | false =>
        rw [Stage.work_test hp hs he]
        exact .enter hp hs he
      | true =>
        rw [Stage.work_look hp hs he]
        unfold Stage.look
        split
        · exact .miss hp hs he ‹_›
        · split
          · exact .answer hp hs he ‹_› ‹_›
          · exact .fault hp hs he ‹_› ‹_›

/-- The stage has answered its inputs, up to the first one that faults. -/
def Stage.Serves (f : σ → α → Except Fault (σ × List β)) (s₀ : σ) (st : Stage σ α β) : Prop :=
  match st.state with
  | .ok s => serve f s₀ st.taken = .ok (s, st.given ++ st.outbox ++ st.pending)
  | .error e => ∃ as a s, st.taken = as ++ [a] ∧
      serve f s₀ as = .ok (s, st.given ++ st.outbox ++ st.pending) ∧ f s a = .error e

/-- Only what was given, what waits in the outbox and what is to be handed on matter, and these
    only together. -/
theorem Stage.Serves.congr {st' : Stage σ α β} (h : st.Serves f s₀) (hs : st'.state = st.state)
    (ht : st'.taken = st.taken)
    (ho : st'.given ++ st'.outbox ++ st'.pending = st.given ++ st.outbox ++ st.pending) :
    st'.Serves f s₀ := by
  unfold Stage.Serves at h ⊢
  rw [hs, ht, ho]
  exact h

theorem Stage.Serves.work (h : st.Serves f s₀) (n : Nat) : (st.work f n).Serves f s₀ := by
  have hworks := st.works f n
  generalize st.work f n = st' at hworks
  cases hworks with
  | hand hp _ =>
    refine h.congr rfl rfl ?_
    dsimp only
    rw [hp]
    simp
  | answer hp hs _ hin hf =>
    unfold Stage.Serves at h ⊢
    rw [hs, hp, List.append_nil] at h
    exact serve_snoc h hf
  | @fault s e a as hp hs _ hin hf =>
    unfold Stage.Serves at h ⊢
    rw [hs] at h
    exact ⟨st.taken, a, s, rfl, h, hf⟩
  | wait => exact h
  | enter => exact h.congr rfl rfl rfl
  | miss => exact h.congr rfl rfl rfl
  | dead => exact h

theorem Stage.Serves.step (h : st.Serves f s₀) (n : Nat) (a : StageAct α) :
    (st.step f n a).Serves f s₀ := by
  cases a with
  | offer a =>
    unfold Stage.step
    dsimp only
    split
    · exact h.congr rfl rfl rfl
    · exact h
  | work => exact h.work n
  | take =>
    unfold Stage.step
    dsimp only
    split
    · exact h
    · rename_i b bs hout
      refine h.congr rfl rfl ?_
      dsimp only
      rw [hout]
      simp
  | stop => exact h.congr rfl rfl rfl

theorem Stage.Serves.run (h : st.Serves f s₀) (n : Nat) (acts : List (StageAct α)) :
    (st.run f n acts).Serves f s₀ := by
  induction acts generalizing st with
  | nil => exact h
  | cons a acts ih => exact ih (h.step n a)

theorem Stage.serves_init (s₀ : σ) : (Stage.init s₀ : Stage σ α β).Serves f s₀ := rfl

/-- A stage is where its machine is after the inputs taken, fault or not. -/
theorem Stage.Serves.outcome (h : st.Serves f s₀) :
    match serve f s₀ st.taken with
    | .ok (s, out) => st.state = .ok s ∧ st.given ++ st.outbox ++ st.pending = out
    | .error e => st.state = .error e := by
  unfold Stage.Serves at h
  cases hs : st.state with
  | ok s =>
    rw [hs] at h
    dsimp only at h
    rw [h]
    exact ⟨rfl, rfl⟩
  | error e =>
    rw [hs] at h
    obtain ⟨as, a, s, htaken, hserve, hf⟩ := h
    rw [htaken, serve_append hserve, serve, hf]
    rfl

/-- The outputs are the answer to a first part of the inputs. -/
theorem Stage.Serves.answers (h : st.Serves f s₀) : ∃ as s, as <+: st.taken ∧
    serve f s₀ as = .ok (s, st.given ++ st.outbox ++ st.pending) := by
  unfold Stage.Serves at h
  cases hs : st.state with
  | ok s =>
    rw [hs] at h
    exact ⟨st.taken, s, List.prefix_refl _, h⟩
  | error e =>
    rw [hs] at h
    obtain ⟨as, a, s, htaken, hserve, -⟩ := h
    exact ⟨as, s, htaken ▸ List.prefix_append _ _, hserve⟩

end Stage

/-! ## Fair rounds -/

section Fair

variable {S A : Type} {step : S → A → S} {I : S → Prop} {P : A → Prop} {μ : S → Nat}
variable {helpful : S → A}

theorem fold_keeps (keep : ∀ s a, P a → I s → I (step s a))
    (mono : ∀ s a, P a → I s → μ (step s a) ≤ μ s) {s : S} (hI : I s) {acts : List A}
    (hP : ∀ a ∈ acts, P a) : I (acts.foldl step s) ∧ μ (acts.foldl step s) ≤ μ s := by
  induction acts generalizing s with
  | nil => exact ⟨hI, Nat.le_refl _⟩
  | cons a acts ih =>
    have ha := hP a List.mem_cons_self
    obtain ⟨hI', hle⟩ := ih (keep s a ha hI) fun b hb => hP b (List.mem_cons_of_mem _ hb)
    exact ⟨hI', hle.trans (mono s a ha hI)⟩

/-- A round with the helpful action in it. Until that happens the measure goes down or the same
    action stays helpful. -/
theorem round_lowers (keep : ∀ s a, P a → I s → I (step s a))
    (mono : ∀ s a, P a → I s → μ (step s a) ≤ μ s)
    (help : ∀ s, I s → 0 < μ s → μ (step s (helpful s)) < μ s)
    (stay : ∀ s a, P a → I s → 0 < μ s → μ (step s a) = μ s → helpful (step s a) = helpful s)
    {s : S} (hI : I s) (hpos : 0 < μ s) {acts : List A} (hP : ∀ a ∈ acts, P a)
    (hmem : helpful s ∈ acts) : μ (acts.foldl step s) < μ s := by
  induction acts generalizing s with
  | nil => cases hmem
  | cons a acts ih =>
    have ha := hP a List.mem_cons_self
    have hP' := fun b hb => hP b (List.mem_cons_of_mem _ hb)
    have hI' := keep s a ha hI
    rcases Nat.lt_or_eq_of_le (mono s a ha hI) with hlt | heq
    · exact Nat.lt_of_le_of_lt (fold_keeps keep mono hI' hP').2 hlt
    · have hne : helpful s ≠ a := by
        rintro rfl
        exact Nat.ne_of_lt (help s hI hpos) heq
      have hmem' := (List.mem_cons.mp hmem).resolve_left hne
      have hlt := ih hI' (by omega) hP' (by rw [stay s a ha hI hpos heq]; exact hmem')
      exact Nat.lt_of_lt_of_eq hlt heq

/-- Rounds that contain every action that may be helpful. -/
theorem fair_rounds (keep : ∀ s a, P a → I s → I (step s a))
    (mono : ∀ s a, P a → I s → μ (step s a) ≤ μ s)
    (help : ∀ s, I s → 0 < μ s → μ (step s (helpful s)) < μ s)
    (stay : ∀ s a, P a → I s → 0 < μ s → μ (step s a) = μ s → helpful (step s a) = helpful s)
    {s : S} (hI : I s) {rounds : List (List A)} (hP : ∀ r ∈ rounds, ∀ a ∈ r, P a)
    (hfair : ∀ r ∈ rounds, ∀ s, helpful s ∈ r) :
    I (rounds.flatten.foldl step s) ∧
      μ (rounds.flatten.foldl step s) ≤ μ s - rounds.length := by
  induction rounds generalizing s with
  | nil => exact ⟨hI, Nat.le_refl _⟩
  | cons r rounds ih =>
    have hr := hP r List.mem_cons_self
    obtain ⟨hI', hle⟩ := fold_keeps keep mono hI hr
    obtain ⟨hI'', hle'⟩ := ih hI' (fun b hb => hP b (List.mem_cons_of_mem _ hb))
      fun b hb => hfair b (List.mem_cons_of_mem _ hb)
    rw [List.flatten_cons, List.foldl_append, List.length_cons]
    refine ⟨hI'', ?_⟩
    rcases Nat.eq_zero_or_pos (μ s) with hzero | hpos
    · omega
    · have hlt := round_lowers keep mono help stay hI hpos hr (hfair r List.mem_cons_self s)
      omega

end Fair

/-! ## Answers in time -/

section Answers

variable {f : σ → α → Except Fault (σ × List β)} {n c : Nat} {st : Stage σ α β} {s₀ : σ}
variable {goal : List α}

/-- The work in a stage: for an input the test of the loop and the answer, and up to `c` outputs,
    each of which is handed on and taken. -/
def Stage.load (c : Nat) (st : Stage σ α β) : Nat :=
  (2 * c + 2) * st.inbox.length + 2 * st.pending.length + st.outbox.length + 1

/-- The test of the loop is still to be made before the next one of the inputs `goal`. -/
def Stage.gap (goal : List α) (st : Stage σ α β) : Nat :=
  if st.entered = true ∨ goal.length ≤ st.taken.length then 0 else 1

/-- The outputs for those of the inputs `goal` that have been taken. -/
def Stage.owed (f : σ → α → Except Fault (σ × List β)) (s₀ : σ) (goal : List α)
    (st : Stage σ α β) : Nat :=
  match serve f s₀ (st.taken.take goal.length) with
  | .ok (_, bs) => bs.length
  | .error _ => 0

/-- The work left until the inputs `goal` are answered. -/
def Stage.debt (f : σ → α → Except Fault (σ × List β)) (s₀ : σ) (c : Nat) (goal : List α)
    (st : Stage σ α β) : Nat :=
  match st.state with
  | .ok _ => (2 * c + 2) * (goal.length - st.taken.length) + st.gap goal +
      (st.owed f s₀ goal - st.given.length) +
      (st.owed f s₀ goal - (st.given.length + st.outbox.length))
  | .error _ => 0

/-- A running stage that has got the inputs `goal`. -/
structure Stage.Owes (f : σ → α → Except Fault (σ × List β)) (s₀ : σ) (goal : List α)
    (st : Stage σ α β) : Prop where
  serves : st.Serves f s₀
  running : st.running = true
  got : goal <+: st.taken ++ st.inbox

theorem Stage.Owes.all (h : st.Owes f s₀ goal) {s : σ} (hs : st.state = .ok s) :
    serve f s₀ st.taken = .ok (s, st.given ++ st.outbox ++ st.pending) := by
  have hserves := h.serves
  unfold Stage.Serves at hserves
  rwa [hs] at hserves

/-- As long as some of the inputs are still to be taken, all outputs are for them. -/
theorem Stage.Owes.owed_eq (h : st.Owes f s₀ goal) {s : σ} (hs : st.state = .ok s)
    (hle : st.taken.length ≤ goal.length) :
    st.owed f s₀ goal = st.given.length + st.outbox.length + st.pending.length := by
  unfold Stage.owed
  rw [List.take_of_length_le hle, h.all hs]
  dsimp only
  rw [List.length_append, List.length_append]

theorem Stage.Owes.owed_le (h : st.Owes f s₀ goal) {s : σ} (hs : st.state = .ok s) :
    st.owed f s₀ goal ≤ st.given.length + st.outbox.length + st.pending.length := by
  have hall := h.all hs
  rw [← List.take_append_drop goal.length st.taken] at hall
  obtain ⟨t, bs, hserve, hpre⟩ := serve_mono hall
  have hlen := hpre.length_le
  rw [List.length_append, List.length_append] at hlen
  unfold Stage.owed
  rwa [hserve]

/-- Inputs beyond `goal` do not count. -/
theorem Stage.owed_of_taken {st' : Stage σ α β}
    (ht : st'.taken.take goal.length = st.taken.take goal.length) :
    st'.owed f s₀ goal = st.owed f s₀ goal := by
  unfold Stage.owed
  rw [ht]

theorem Stage.Owes.work_got (h : st.Owes f s₀ goal) :
    (st.work f n).running = true ∧ goal <+: (st.work f n).taken ++ (st.work f n).inbox := by
  have hgot := h.got
  have hworks := st.works f n
  generalize st.work f n = st' at hworks
  cases hworks with
  | hand => exact ⟨h.running, hgot⟩
  | answer _ _ _ hin _ =>
    refine ⟨h.running, ?_⟩
    rw [hin] at hgot
    simpa using hgot
  | fault _ _ _ hin _ =>
    refine ⟨h.running, ?_⟩
    rw [hin] at hgot
    simpa using hgot
  | wait => exact ⟨h.running, hgot⟩
  | enter => exact ⟨h.running, hgot⟩
  | miss => exact ⟨h.running, hgot⟩
  | dead => exact ⟨h.running, hgot⟩

theorem Stage.Owes.step (h : st.Owes f s₀ goal) (n : Nat) {a : StageAct α} (ha : a ≠ .stop) :
    (st.step f n a).Owes f s₀ goal := by
  have hboth : (st.step f n a).running = true ∧
      goal <+: (st.step f n a).taken ++ (st.step f n a).inbox := by
    cases a with
    | stop => exact absurd rfl ha
    | work => exact h.work_got
    | offer a =>
      unfold Stage.step
      dsimp only
      split
      · refine ⟨h.running, h.got.trans ?_⟩
        rw [← List.append_assoc]
        exact List.prefix_append _ _
      · exact ⟨h.running, h.got⟩
    | take =>
      unfold Stage.step
      dsimp only
      split
      · exact ⟨h.running, h.got⟩
      · exact ⟨h.running, h.got⟩
  exact ⟨h.serves.step n a, hboth.1, hboth.2⟩

variable (f c s₀ goal) in
theorem Stage.debt_ok {s : σ} (hs : st.state = .ok s) : st.debt f s₀ c goal =
    (2 * c + 2) * (goal.length - st.taken.length) + st.gap goal +
      (st.owed f s₀ goal - st.given.length) +
      (st.owed f s₀ goal - (st.given.length + st.outbox.length)) := by
  unfold Stage.debt
  rw [hs]

variable (f c s₀ goal) in
theorem Stage.debt_error {e : Fault} (hs : st.state = .error e) : st.debt f s₀ c goal = 0 := by
  unfold Stage.debt
  rw [hs]

theorem Stage.gap_le (goal : List α) (st : Stage σ α β) : st.gap goal ≤ 1 := by
  unfold Stage.gap
  split
  · exact Nat.zero_le 1
  · exact Nat.le_refl 1

theorem Stage.gap_entered (he : st.entered = true) : st.gap goal = 0 := if_pos (.inl he)

theorem Stage.gap_taken (h : goal.length ≤ st.taken.length) : st.gap goal = 0 := if_pos (.inr h)

theorem Stage.gap_of_lt (he : st.entered = false) (h : st.taken.length < goal.length) :
    st.gap goal = 1 := by
  refine if_neg ?_
  rw [he]
  simpa using h

/-- A thread that does nothing else: only the test of the loop counts. -/
theorem Stage.debt_congr {st' : Stage σ α β} (hs' : st'.state = st.state)
    (ht' : st'.taken = st.taken) (hg' : st'.given = st.given) (ho' : st'.outbox = st.outbox)
    (hgap : st'.gap goal = st.gap goal) : st'.debt f s₀ c goal = st.debt f s₀ c goal := by
  have howed : st'.owed f s₀ goal = st.owed f s₀ goal := Stage.owed_of_taken (by rw [ht'])
  unfold Stage.debt
  rw [hs', ht', hg', ho', hgap, howed]

/-- An output that is still owed is in the outbox or is handed on; so as long as something is left
    to do and an output waits to be taken, it is owed. -/
theorem Stage.Owes.given_lt (h : st.Owes f s₀ goal) {s : σ} (hs : st.state = .ok s)
    (hpos : 0 < st.debt f s₀ c goal) (hout : 0 < st.outbox.length + st.pending.length) :
    st.given.length < st.owed f s₀ goal := by
  rw [Stage.debt_ok f c s₀ goal hs] at hpos
  rcases Nat.lt_or_ge st.taken.length goal.length with hlt | hge
  · rw [h.owed_eq hs (Nat.le_of_lt hlt)]
    omega
  · rw [Nat.sub_eq_zero_of_le hge, Nat.mul_zero, Stage.gap_taken hge] at hpos
    omega

/-- An output is handed on. -/
theorem Stage.Owes.hand_debt (h : st.Owes f s₀ goal) {st' : Stage σ α β}
    (hs' : st'.state = st.state) (ht' : st'.taken = st.taken) (hg' : st'.given = st.given)
    (he' : st'.entered = st.entered) (ho' : st'.outbox.length = st.outbox.length + 1)
    (hp : 0 < st.pending.length) :
    st'.debt f s₀ c goal ≤ st.debt f s₀ c goal ∧ (st.outbox = [] → 0 < st.debt f s₀ c goal →
      st'.debt f s₀ c goal < st.debt f s₀ c goal) := by
  cases hs : st.state with
  | error e =>
    rw [Stage.debt_error f c s₀ goal hs, Stage.debt_error f c s₀ goal (hs'.trans hs)]
    exact ⟨Nat.le_refl _, fun _ => nofun⟩
  | ok s =>
    have howed : st'.owed f s₀ goal = st.owed f s₀ goal := Stage.owed_of_taken (by rw [ht'])
    have hgap : st'.gap goal = st.gap goal := by
      unfold Stage.gap
      rw [he', ht']
    have hdebt := Stage.debt_ok f c s₀ goal hs
    have hdebt' := Stage.debt_ok f c s₀ goal (hs'.trans hs)
    rw [hdebt', howed, hgap, ht', hg', ho']
    refine ⟨by rw [hdebt]; omega, fun hout hpos => ?_⟩
    have hlt := h.given_lt hs hpos (by omega)
    rw [hdebt, hout, List.length_nil]
    omega

/-- An input is answered. One of the inputs `goal` stands for more than its outputs; a later one
    does not count. -/
theorem Stage.Owes.answer_debt (h : st.Owes f s₀ goal) {st' : Stage σ α β}
    (h' : st'.Owes f s₀ goal) {s t : σ} {a : α} (hs : st.state = .ok s) (hs' : st'.state = .ok t)
    (hp : st.pending = []) (ht' : st'.taken = st.taken ++ [a]) (hg' : st'.given = st.given)
    (ho' : st'.outbox = st.outbox) (hp' : st'.pending.length ≤ c) :
    st'.debt f s₀ c goal ≤ st.debt f s₀ c goal ∧ (st.outbox = [] → 0 < st.debt f s₀ c goal →
      st'.debt f s₀ c goal < st.debt f s₀ c goal) := by
  have hlen' : st'.taken.length = st.taken.length + 1 := by
    rw [ht', List.length_append, List.length_singleton]
  rw [Stage.debt_ok f c s₀ goal hs, Stage.debt_ok f c s₀ goal hs', hlen', hg', ho']
  rcases Nat.lt_or_ge st.taken.length goal.length with hlt | hge
  · have howed := h.owed_eq hs (Nat.le_of_lt hlt)
    have howed' := h'.owed_eq hs' (by omega)
    have hgap := Stage.gap_le goal st'
    rw [hp, List.length_nil] at howed
    rw [hg', ho'] at howed'
    rw [howed, howed']
    have hrem : goal.length - st.taken.length = goal.length - (st.taken.length + 1) + 1 := by omega
    rw [hrem, Nat.mul_succ]
    exact ⟨by omega, fun _ _ => by omega⟩
  · have howed : st'.owed f s₀ goal = st.owed f s₀ goal := by
      refine Stage.owed_of_taken ?_
      rw [ht', List.take_append_of_le_length hge]
    have hrem : goal.length - st.taken.length = 0 := by omega
    have hrem' : goal.length - (st.taken.length + 1) = 0 := by omega
    have hgap := Stage.gap_taken hge
    have hgap' : st'.gap goal = 0 := Stage.gap_taken (by omega)
    rw [howed, hrem, hrem', hgap, hgap', Nat.mul_zero]
    refine ⟨Nat.le_refl _, fun hout hpos => ?_⟩
    have hle := h.owed_le hs
    rw [hout, hp, List.length_nil] at hle
    omega

/-- A thread with nothing to hand on and an empty outbox has answered what it has taken. -/
theorem Stage.Owes.debt_taken (h : st.Owes f s₀ goal) {s : σ} (hs : st.state = .ok s)
    (hp : st.pending = []) (hout : st.outbox = []) (hge : goal.length ≤ st.taken.length) :
    st.debt f s₀ c goal = 0 := by
  have hle := h.owed_le hs
  rw [hout, hp, List.length_nil] at hle
  rw [Stage.debt_ok f c s₀ goal hs, Nat.sub_eq_zero_of_le hge, Nat.mul_zero, Stage.gap_taken hge]
  omega

/-- The test of the loop. It counts before one of the inputs `goal`. -/
theorem Stage.Owes.enter_debt (h : st.Owes f s₀ goal) {s : σ} (hs : st.state = .ok s)
    (hp : st.pending = []) (he : st.entered = false) :
    Stage.debt f s₀ c goal { st with entered := st.running } ≤ st.debt f s₀ c goal ∧
      (st.outbox = [] → 0 < st.debt f s₀ c goal →
        Stage.debt f s₀ c goal { st with entered := st.running } < st.debt f s₀ c goal) := by
  rcases Nat.lt_or_ge st.taken.length goal.length with hlt | hge
  · have hgap := Stage.gap_of_lt he hlt
    have hgap' : Stage.gap goal { st with entered := st.running } = 0 :=
      Stage.gap_entered h.running
    have hdebt' : Stage.debt f s₀ c goal { st with entered := st.running } = _ :=
      Stage.debt_ok f c s₀ goal hs
    have howed : Stage.owed f s₀ goal { st with entered := st.running } = st.owed f s₀ goal := rfl
    rw [hdebt', hgap', howed, Stage.debt_ok f c s₀ goal hs, hgap]
    exact ⟨by dsimp only; omega, fun _ _ => by dsimp only; omega⟩
  · refine ⟨Nat.le_of_eq (Stage.debt_congr rfl rfl rfl rfl ?_), fun hout hpos => ?_⟩
    · exact Eq.trans (if_pos (.inr hge)) (Stage.gap_taken hge).symm
    · rw [h.debt_taken hs hp hout hge] at hpos
      exact absurd hpos (Nat.lt_irrefl 0)

/-- A step of the thread. With an empty outbox it is of use. -/
theorem Stage.Owes.work_debt (h : st.Owes f s₀ goal)
    (hc : ∀ s a t bs, f s a = .ok (t, bs) → bs.length ≤ c) (hn : 0 < n) :
    (st.work f n).debt f s₀ c goal ≤ st.debt f s₀ c goal ∧
      (st.outbox = [] → 0 < st.debt f s₀ c goal →
        (st.work f n).debt f s₀ c goal < st.debt f s₀ c goal) := by
  have h' : (st.work f n).Owes f s₀ goal := h.step n (a := .work) nofun
  have hworks := st.works f n
  generalize st.work f n = st' at hworks h'
  cases hworks with
  | hand hp hroom =>
    refine h.hand_debt rfl rfl rfl rfl List.length_append ?_
    rw [hp]
    exact Nat.zero_lt_succ _
  | wait hp hfull =>
    refine ⟨Nat.le_refl _, fun hout => ?_⟩
    rw [hout, List.length_nil] at hfull
    omega
  | enter hp hs he => exact h.enter_debt hs hp he
  | answer hp hs he hin hf => exact h.answer_debt h' hs rfl hp rfl rfl rfl (hc _ _ _ _ hf)
  | fault =>
    refine ⟨?_, fun _ hpos => ?_⟩
    · rw [Stage.debt_error f c s₀ goal rfl]
      exact Nat.zero_le _
    · rwa [Stage.debt_error f c s₀ goal rfl]
  | miss hp hs he hin =>
    -- all of `goal` has been taken
    have hge := h.got.length_le
    rw [hin, List.append_nil] at hge
    refine ⟨Nat.le_of_eq (Stage.debt_congr rfl rfl rfl rfl ?_), fun hout hpos => ?_⟩
    · exact Eq.trans (if_pos (.inr hge)) (Stage.gap_taken hge).symm
    · rw [h.debt_taken hs hp hout hge] at hpos
      exact absurd hpos (Nat.lt_irrefl 0)
  | dead hp hs =>
    refine ⟨Nat.le_refl _, fun _ hpos => ?_⟩
    rw [Stage.debt_error f c s₀ goal hs] at hpos
    exact absurd hpos (Nat.lt_irrefl 0)

theorem Stage.step_take {b : β} {bs : List β} (hout : st.outbox = b :: bs) :
    st.step f n .take = { st with outbox := bs, given := st.given ++ [b] } := by
  unfold Stage.step
  dsimp only
  rw [hout]

theorem Stage.step_take_nil (hout : st.outbox = []) : st.step f n .take = st := by
  unfold Stage.step
  dsimp only
  rw [hout]

/-- Taking an output that waits is of use. -/
theorem Stage.Owes.take_debt (h : st.Owes f s₀ goal) {b : β} {bs : List β}
    (hout : st.outbox = b :: bs) :
    (st.step f n .take).debt f s₀ c goal ≤ st.debt f s₀ c goal ∧ (0 < st.debt f s₀ c goal →
      (st.step f n .take).debt f s₀ c goal < st.debt f s₀ c goal) := by
  have hstep := Stage.step_take (f := f) (n := n) hout
  have hs' : (st.step f n .take).state = st.state := by rw [hstep]
  cases hs : st.state with
  | error e =>
    rw [Stage.debt_error f c s₀ goal hs, Stage.debt_error f c s₀ goal (hs'.trans hs)]
    exact ⟨Nat.le_refl _, nofun⟩
  | ok s =>
    have howed : (st.step f n .take).owed f s₀ goal = st.owed f s₀ goal :=
      Stage.owed_of_taken (by rw [hstep])
    have hgap : (st.step f n .take).gap goal = st.gap goal := by rw [hstep]; rfl
    have hlen : st.outbox.length = bs.length + 1 := by rw [hout, List.length_cons]
    have hdebt := Stage.debt_ok f c s₀ goal hs
    have hdebt' := Stage.debt_ok f c s₀ goal (hs'.trans hs)
    rw [howed, hgap, hstep] at hdebt'
    dsimp only at hdebt'
    rw [List.length_append, List.length_singleton] at hdebt'
    rw [hstep, hdebt']
    refine ⟨by rw [hdebt]; omega, fun hpos => ?_⟩
    have hlt := h.given_lt hs hpos (by omega)
    rw [hdebt]
    omega

/-- What helps: to take an output if one waits, else a step of the thread. -/
def Stage.helpful (st : Stage σ α β) : StageAct α := if st.outbox.isEmpty then .work else .take

theorem Stage.helpful_of_nil (hout : st.outbox = []) : st.helpful = .work := by
  unfold Stage.helpful
  rw [hout]
  rfl

theorem Stage.helpful_of_cons {b : β} {bs : List β} (hout : st.outbox = b :: bs) :
    st.helpful = .take := by
  unfold Stage.helpful
  rw [hout]
  rfl

/-- Offers do not matter. -/
theorem Stage.offer_debt (a : α) :
    (st.step f n (.offer a)).debt f s₀ c goal = st.debt f s₀ c goal := by
  unfold Stage.step
  dsimp only
  split <;> rfl

theorem Stage.offer_outbox (a : α) : (st.step f n (.offer a)).outbox = st.outbox := by
  unfold Stage.step
  dsimp only
  split <;> rfl

/-- A step of the thread leaves what waits in the outbox there. -/
theorem Stage.work_outbox {b : β} {bs : List β} (hout : st.outbox = b :: bs) :
    ∃ cs, (st.work f n).outbox = b :: cs := by
  have hworks := st.works f n
  generalize st.work f n = st' at hworks
  cases hworks with
  | hand => exact ⟨bs ++ [_], by dsimp only; rw [hout]; rfl⟩
  | wait => exact ⟨bs, hout⟩
  | enter => exact ⟨bs, hout⟩
  | answer => exact ⟨bs, hout⟩
  | fault => exact ⟨bs, hout⟩
  | miss => exact ⟨bs, hout⟩
  | dead => exact ⟨bs, hout⟩

theorem Stage.Owes.debt_le (h : st.Owes f s₀ goal)
    (hc : ∀ s a t bs, f s a = .ok (t, bs) → bs.length ≤ c) (hn : 0 < n) {a : StageAct α}
    (ha : a ≠ .stop) : (st.step f n a).debt f s₀ c goal ≤ st.debt f s₀ c goal := by
  cases a with
  | stop => exact absurd rfl ha
  | offer a => exact Nat.le_of_eq (Stage.offer_debt a)
  | work => exact (h.work_debt hc hn).1
  | take =>
    cases hout : st.outbox with
    | nil => rw [Stage.step_take_nil hout]
    | cons b bs => exact (h.take_debt hout).1

theorem Stage.Owes.debt_helpful (h : st.Owes f s₀ goal)
    (hc : ∀ s a t bs, f s a = .ok (t, bs) → bs.length ≤ c) (hn : 0 < n)
    (hpos : 0 < st.debt f s₀ c goal) :
    (st.step f n st.helpful).debt f s₀ c goal < st.debt f s₀ c goal := by
  cases hout : st.outbox with
  | nil =>
    rw [Stage.helpful_of_nil hout]
    exact (h.work_debt hc hn).2 hout hpos
  | cons b bs =>
    rw [Stage.helpful_of_cons hout]
    exact (h.take_debt hout).2 hpos

theorem Stage.Owes.helpful_stays (h : st.Owes f s₀ goal)
    (hc : ∀ s a t bs, f s a = .ok (t, bs) → bs.length ≤ c) (hn : 0 < n) {a : StageAct α}
    (ha : a ≠ .stop) (hpos : 0 < st.debt f s₀ c goal)
    (heq : (st.step f n a).debt f s₀ c goal = st.debt f s₀ c goal) :
    (st.step f n a).helpful = st.helpful := by
  have hother : a ≠ st.helpful := by
    rintro rfl
    exact Nat.ne_of_lt (h.debt_helpful hc hn hpos) heq
  cases a with
  | stop => exact absurd rfl ha
  | offer a =>
    unfold Stage.helpful
    rw [Stage.offer_outbox]
  | work =>
    cases hout : st.outbox with
    | nil => exact absurd (Stage.helpful_of_nil hout).symm hother
    | cons b bs =>
      obtain ⟨cs, hcs⟩ := Stage.work_outbox (f := f) (n := n) hout
      exact (Stage.helpful_of_cons hcs).trans (Stage.helpful_of_cons hout).symm
  | take =>
    cases hout : st.outbox with
    | nil => rw [Stage.step_take_nil hout]
    | cons b bs => exact absurd (Stage.helpful_of_cons hout).symm hother

/-- At first all the work in the stage is owed. -/
theorem Stage.Owes.debt_load (h : st.Owes f s₀ (st.taken ++ st.inbox)) (c : Nat) :
    st.debt f s₀ c (st.taken ++ st.inbox) ≤ st.load c := by
  unfold Stage.load
  cases hs : st.state with
  | error e =>
    rw [Stage.debt_error f c s₀ _ hs]
    exact Nat.zero_le _
  | ok s =>
    have hle := h.owed_le hs
    have hgap := Stage.gap_le (st.taken ++ st.inbox) st
    rw [Stage.debt_ok f c s₀ _ hs, List.length_append, Nat.add_sub_cancel_left]
    omega

/-- Nothing left to do: the inputs have been taken, and all their outputs. -/
theorem Stage.Owes.answered (h : st.Owes f s₀ goal) (hzero : st.debt f s₀ c goal = 0) :
    (∃ e, st.state = .error e) ∨ ∃ s bs, serve f s₀ goal = .ok (s, bs) ∧ bs <+: st.given := by
  cases hs : st.state with
  | error e => exact .inl ⟨e, rfl⟩
  | ok s =>
    rw [Stage.debt_ok f c s₀ goal hs] at hzero
    have hrem : goal.length - st.taken.length = 0 := by
      by_contra hne
      have hpos : 0 < (2 * c + 2) * (goal.length - st.taken.length) :=
        Nat.mul_pos (Nat.succ_pos (2 * c + 1)) (Nat.pos_of_ne_zero hne)
      omega
    have hgoal : goal <+: st.taken :=
      List.prefix_of_prefix_length_le h.got (List.prefix_append _ _) (by omega)
    obtain ⟨more, hmore⟩ := hgoal
    have hall := h.all hs
    rw [← hmore] at hall
    obtain ⟨t, bs, hserve, hpre⟩ := serve_mono hall
    have howed : st.owed f s₀ goal = bs.length := by
      unfold Stage.owed
      rw [← hmore, List.take_left, hserve]
    refine .inr ⟨t, bs, hserve, ?_⟩
    rw [List.append_assoc] at hpre
    exact List.prefix_of_prefix_length_le hpre (List.prefix_append _ _) (by omega)

/-- A round in which the thread takes a step and an output is taken if one waits; offers may come
    at any time. -/
structure Round (r : List (StageAct α)) : Prop where
  work : .work ∈ r
  take : .take ∈ r
  goes_on : .stop ∉ r

/-- In as many rounds as there is work in the stage, the inputs in it are answered and their
    outputs taken, whatever is offered meanwhile; or the machine has faulted. -/
theorem Stage.answered (hc : ∀ s a t bs, f s a = .ok (t, bs) → bs.length ≤ c) (hn : 0 < n)
    (h : st.Serves f s₀) (hrun : st.running = true) {rounds : List (List (StageAct α))}
    (hfair : ∀ r ∈ rounds, Round r) (hlen : st.load c ≤ rounds.length) :
    (∃ e, (st.run f n rounds.flatten).state = .error e) ∨
      ∃ s bs, serve f s₀ (st.taken ++ st.inbox) = .ok (s, bs) ∧
        bs <+: (st.run f n rounds.flatten).given := by
  have howes : st.Owes f s₀ (st.taken ++ st.inbox) := ⟨h, hrun, List.prefix_refl _⟩
  obtain ⟨hend, hdebt⟩ := fair_rounds (P := fun a => a ≠ .stop)
    (fun _ a ha hI => Stage.Owes.step hI n ha) (fun _ a ha hI => Stage.Owes.debt_le hI hc hn ha)
    (fun _ hI hpos => Stage.Owes.debt_helpful hI hc hn hpos)
    (fun _ a ha hI hpos heq => Stage.Owes.helpful_stays hI hc hn ha hpos heq) howes
    (fun r hr a ha he => (hfair r hr).goes_on (he ▸ ha)) (fun r hr s => by
      unfold Stage.helpful
      split
      · exact (hfair r hr).work
      · exact (hfair r hr).take)
  have hzero : (st.run f n rounds.flatten).debt f s₀ c (st.taken ++ st.inbox) = 0 := by
    have hload := howes.debt_load c
    refine Nat.le_zero.mp (hdebt.trans ?_)
    omega
  exact hend.answered hzero

end Answers

end LiteExchange.Lib
