import CryptixAtomic.Processor.PruningPoint

/-!
# The check of the past pruning points

A joining node is given a list of past pruning points, which should be the picks of its
selected chain. The check compares it, from the newest to genesis, with a queue of the pruning
points that chain blocks and checked pruning points name. By `past_pruning_points_checked` only
the picks pass, if the list starts at the last pick that is deep enough.
-/
namespace CryptixAtomic.Pruning

open Foundation List Option

variable {H : Type}

namespace PruningPointManager

variable [DecidableEq H] (m : PruningPointManager H)

/-- `push_back` of a pruning point that is not at the back already. -/
def pushNew (queue : List H) (point : H) : List H :=
  if queue.getLast? = some point then queue else queue ++ [point]

/-- The loop over `backward_chain_iterator(hst, pruning_point, false)`, which reads the
parent of a block before it hands the block out. -/
def expectedPoints (getParent : H → Option H) (pruningPoint : H) : ℕ → H → List H → Option (List H)
  | 0, _, _ => none
  | fuel + 1, current, queue =>
    if current = pruningPoint then some queue
    else do
      let next ← getParent current
      let point ← m.headerPruningPoint current
      expectedPoints getParent pruningPoint fuel next (pushNew queue point)

def comparePoints : ℕ → List H → Option Bool
  | idx, queue => do
    let pp ← m.pastPruningPoint idx
    let point ← m.headerPruningPoint pp
    match queue with
    | [] => some false
    | expected :: rest =>
      if expected ≠ pp then some false
      else match idx with
        | 0 => some (rest.isEmpty && decide (pp = m.genesisHash))
        | idx + 1 => if rest = [] then some false else comparePoints idx (pushNew rest point)

def arePruningPointsInValidChain (getParent : H → Option H) (fuel : ℕ)
    (info : PruningPointInfo H) (hst : H) : Option Bool := do
  let queue ← m.expectedPoints getParent info.pruningPoint fuel hst []
  m.comparePoints info.index queue

end PruningPointManager

/-- `p (lo + n - 1), …, p lo`. -/
def descending (p : ℕ → H) (lo : ℕ) : ℕ → List H
  | 0 => []
  | n + 1 => p (lo + n) :: descending p lo n

theorem descending_append (p : ℕ → H) (lo n : ℕ) :
    descending p (lo + 1) n ++ [p lo] = descending p lo (n + 1) := by
  induction n with
  | zero => rfl
  | succ n ih =>
    calc descending p (lo + 1) (n + 1) ++ [p lo]
        = p (lo + 1 + n) :: (descending p (lo + 1) n ++ [p lo]) := rfl
      _ = p (lo + (n + 1)) :: descending p lo (n + 1) := by rw [ih, Nat.add_right_comm, Nat.add_assoc]

theorem getLast?_descending (p : ℕ → H) (lo n : ℕ) :
    (descending p lo (n + 1)).getLast? = some (p lo) := by
  rw [← descending_append, getLast?_concat]

/-- The next pick down is appended unless it is there. -/
theorem pushNew_descending [DecidableEq H] {p : ℕ → H} {lo hi u : ℕ} (hlo : lo ≤ hi)
    (hu : u ≤ lo) (hlou : lo ≤ u + 1) (hne : u < lo → p u ≠ p lo) :
    PruningPointManager.pushNew (descending p lo (hi + 1 - lo)) (p u) =
      descending p u (hi + 1 - u) := by
  obtain ⟨n, rfl⟩ := Nat.exists_eq_add_of_le hlo
  have hn : lo + n + 1 - lo = n + 1 := by omega
  rw [PruningPointManager.pushNew, hn, getLast?_descending]
  rcases Nat.lt_or_eq_of_le hu with hlt | rfl
  · obtain rfl : lo = u + 1 := by omega
    rw [if_neg fun heq => hne hlt (some.inj heq).symm, descending_append]
    congr 1
    omega
  · rw [if_pos rfl, hn]

/-- The last of the blue scores `q 0, …, q N` that lies `depth` below `s`, or the first. -/
def lastBelow (q : ℕ → ℕ) (depth N s : ℕ) : ℕ := Nat.findGreatest (fun i => q i + depth ≤ s) N

variable {i : ℕ}

section Arithmetic

variable {q : ℕ → ℕ} {F K depth N : ℕ}

/-- The `i`-th pick is the first block of the `i`-th finality interval. -/
def Spaced (q : ℕ → ℕ) (F K N : ℕ) : Prop := ∀ i ≤ N, i * F ≤ q i ∧ q i ≤ i * F + K

theorem Spaced.gap (h : Spaced q F K N) {j : ℕ} (hij : i < j) (hj : j ≤ N) : q i + F ≤ q j + K := by
  have hi := (h i (by omega)).2
  have hj' := (h j hj).1
  have hmul : (i + 1) * F ≤ j * F := Nat.mul_le_mul_right F hij
  rw [Nat.add_mul, Nat.one_mul] at hmul
  omega

theorem Spaced.le_lastBelow_iff (h : Spaced q F K N) (hF : K < F) (depth s : ℕ) {i : ℕ}
    (hpos : 0 < i)
    (hi : i ≤ N) : i ≤ lastBelow q depth N s ↔ q i + depth ≤ s := by
  constructor
  · intro hle
    have hN : lastBelow q depth N s ≤ N := Nat.findGreatest_le N
    have hspec := @Nat.findGreatest_of_ne_zero _ (fun i => q i + depth ≤ s) _ N
      (show Nat.findGreatest _ N = lastBelow q depth N s from rfl) (by omega)
    rcases Nat.lt_or_eq_of_le hle with hlt | heq
    · have hgap := h.gap hlt hN
      omega
    · rwa [heq]
  · exact fun hle => Nat.le_findGreatest hi hle

theorem Spaced.lastBelow_step (h : Spaced q F K N) (hF : K + K + 1 < F) (depth : ℕ) {s t : ℕ}
    (hst : s ≤ t)
    (hstep : t ≤ s + K + 1) :
    lastBelow q depth N s ≤ lastBelow q depth N t ∧
      lastBelow q depth N t ≤ lastBelow q depth N s + 1 := by
  constructor
  · exact Nat.findGreatest_mono_left (fun i hi => hi.trans hst) N
  · by_contra hlt
    have hN : lastBelow q depth N t ≤ N := Nat.findGreatest_le N
    have hupper := h.le_lastBelow_iff (by omega) depth t
      (Nat.succ_pos (lastBelow q depth N s + 1)) (by omega)
    have hlower := h.le_lastBelow_iff (by omega) depth s
      (Nat.succ_pos (lastBelow q depth N s)) (by omega)
    have hgap := h.gap (Nat.lt_succ_self (lastBelow q depth N s + 1)) (by omega)
    simp only [Nat.succ_eq_add_one] at hupper hlower hgap
    omega

/-- From a pick, the picks of the intervals more than `depth / F` below are deep. -/
theorem Spaced.lastBelow_pick (h : Spaced q F K N) (hlow : K < depth % F)
    (hhigh : depth % F + K < F)
    {j : ℕ} (hj : j ≤ N) : lastBelow q depth N (q j) = j - (depth / F + 1) := by
  have hmod := Nat.div_add_mod depth F
  have hiff : ∀ i, 0 < i → i ≤ N → (i ≤ lastBelow q depth N (q j) ↔ i ≤ j - (depth / F + 1)) := by
    intro i hpos hi
    rw [h.le_lastBelow_iff (by omega) depth _ hpos hi]
    have hqi := h i hi
    have hqj := h j hj
    constructor
    · intro hdeep
      by_contra hlt
      have hmul : j * F ≤ (i + depth / F) * F := Nat.mul_le_mul_right F (by omega)
      rw [Nat.add_mul, Nat.mul_comm (depth / F)] at hmul
      omega
    · intro hle
      have hmul : (i + depth / F + 1) * F ≤ j * F := Nat.mul_le_mul_right F (by omega)
      rw [Nat.add_mul, Nat.add_mul, Nat.mul_comm (depth / F), Nat.one_mul] at hmul
      omega
  have hN : lastBelow q depth N (q j) ≤ N := Nat.findGreatest_le N
  have hjN : j - (depth / F + 1) ≤ N := (Nat.sub_le _ _).trans hj
  apply le_antisymm
  · rcases Nat.eq_zero_or_pos (lastBelow q depth N (q j)) with h0 | hpos
    · omega
    · exact (hiff _ hpos hN).mp le_rfl
  · rcases Nat.eq_zero_or_pos (j - (depth / F + 1)) with h0 | hpos
    · omega
    · exact (hiff _ hpos hjN).mpr le_rfl

end Arithmetic

theorem lastPassing_map_range (test : H → Bool) (p : ℕ → H) (n : ℕ) :
    lastPassing test (p 0) ((List.range (n + 1)).map p) =
      p (Nat.findGreatest (fun i => test (p i) = true) n) := by
  induction n with
  | zero => cases htest : test (p 0) <;> simp [lastPassing, htest]
  | succ n ih =>
    rw [range_succ, map_append, map_singleton, Nat.findGreatest_succ]
    cases htest : test (p (n + 1)) with
    | true =>
      rw [lastPassing_append_of_pass htest, if_pos rfl]
      rfl
    | false =>
      rw [lastPassing_append_of_none (by simpa using htest), ih, if_neg (by simp)]

namespace PruningPointManager

/-- The remainder of the pruning depth keeps `K` away from the finality intervals. -/
structure Apart (m : PruningPointManager H) (K : ℕ) : Prop where
  low : K < m.pruningDepth % m.finalityDepth
  high : m.pruningDepth % m.finalityDepth + K < m.finalityDepth
  depth : m.finalityDepth ≤ m.pruningDepth

/-- A selected chain from genesis whose blue scores grow by at most `K + 1`, and headers with
the pruning points of their own point of view. -/
structure HeaderChain (m : PruningPointManager H) (getParent : H → Option H) (K : ℕ) where
  chain : List H
  blueScore : H → ℕ
  genesis : chain.head? = some m.genesisHash
  genesisScore : blueScore m.genesisHash = 0
  steps : chain.IsChain fun x y => blueScore x < blueScore y ∧ blueScore y ≤ blueScore x + K + 1
  parents : ∀ pre x y post, chain = pre ++ x :: y :: post → getParent y = some x
  points : ∀ pre x post, chain = pre ++ x :: post → pre ≠ [] →
    m.headerPruningPoint x = some (m.pruningPointOf blueScore (blueScore x) pre)

variable {m : PruningPointManager H} {getParent : H → Option H} {K : ℕ}

theorem Apart.finality (h : m.Apart K) : K + K + 1 < m.finalityDepth ∧ 0 < m.pruningDepth := by
  obtain ⟨hlow, hhigh, hdepth⟩ := h
  omega

variable {x : H}

/-- The picks are the first blocks of consecutive finality intervals. -/
theorem records_spaced {blueScore : H → ℕ} (hK : K < m.finalityDepth) {prev : H} {l : List H}
    (hsteps : (prev :: l).IsChain
      fun x y => blueScore x < blueScore y ∧ blueScore y ≤ blueScore x + K + 1)
    (hx : (records (m.score blueScore) (m.score blueScore prev) l)[i]? = some x) :
    (m.score blueScore prev + 1 + i) * m.finalityDepth ≤ blueScore x ∧
      blueScore x ≤ (m.score blueScore prev + 1 + i) * m.finalityDepth + K := by
  induction l generalizing prev i with
  | nil => simp [records] at hx
  | cons y l ih =>
    obtain ⟨⟨hlt, hle⟩, hrest⟩ := isChain_cons_cons.mp hsteps
    have hprev : blueScore prev < (m.score blueScore prev + 1) * m.finalityDepth := by
      rw [Nat.mul_comm]
      exact Nat.lt_mul_div_succ (blueScore prev) m.finalityDepth_pos
    rw [records] at hx
    split_ifs at hx with hrecord
    · have hmin := minRequired_le hrecord
      have hscore : m.score blueScore y = m.score blueScore prev + 1 := by
        apply le_antisymm _ hrecord
        apply Nat.lt_succ_iff.mp
        apply Nat.div_lt_of_lt_mul
        rw [Nat.mul_comm, Nat.succ_eq_add_one, Nat.add_mul _ 1, Nat.one_mul]
        omega
      cases i with
      | zero =>
        obtain rfl := some.inj hx
        rw [Nat.add_zero]
        exact ⟨hmin, by omega⟩
      | succ i =>
        have hnext := ih hrest hx
        rwa [hscore, Nat.add_right_comm _ 1 i, Nat.add_assoc _ i 1] at hnext
    · have hscore : m.score blueScore y = m.score blueScore prev :=
        le_antisymm (not_lt.mp hrecord) (Nat.div_le_div_right hlt.le)
      rw [← hscore] at hx ⊢
      exact ih hrest hx

namespace HeaderChain

variable (c : m.HeaderChain getParent K)

def picks : List H := m.picks c.blueScore c.chain

def pick (i : ℕ) : H := c.picks.getD i m.genesisHash

def last : ℕ := c.picks.length - 1

/-- The number of the pick that a block names. -/
def named (x : H) : ℕ :=
  lastBelow (fun i => c.blueScore (c.pick i)) m.pruningDepth c.last (c.blueScore x)

theorem getElem?_picks (hi : i < c.picks.length) : c.picks[i]? = some (c.pick i) := by
  simp [pick, hi]

theorem exists_cons : ∃ rest, c.chain = m.genesisHash :: rest := by
  have hgenesis := c.genesis
  cases hchain : c.chain with
  | nil =>
    rw [hchain] at hgenesis
    cases hgenesis
  | cons g rest =>
    rw [hchain] at hgenesis
    exact ⟨rest, by rw [some.inj hgenesis]⟩

theorem increasing : c.chain.Pairwise fun x y => c.blueScore x < c.blueScore y := by
  have htrans : IsTrans H fun x y => c.blueScore x < c.blueScore y := ⟨fun _ _ _ => lt_trans⟩
  exact isChain_iff_pairwise.mp (c.steps.imp fun _ _ hstep => hstep.1)

theorem lt_length (hi : i ≤ c.last) : i < c.picks.length := by
  obtain ⟨rest, hchain⟩ := c.exists_cons
  have hpos : 0 < c.picks.length := by simp [picks, hchain, PruningPointManager.picks]
  unfold last at hi
  omega

theorem map_pick : (List.range (c.last + 1)).map c.pick = c.picks := by
  have hlen : c.last + 1 = c.picks.length := Nat.succ_pred (Nat.ne_of_gt (c.lt_length (Nat.zero_le _)))
  apply ext_getElem (by simp [hlen])
  intro i hi hi'
  simp [pick, hi']

theorem pick_zero : c.pick 0 = m.genesisHash := by
  obtain ⟨rest, hchain⟩ := c.exists_cons
  simp [pick, picks, hchain, PruningPointManager.picks]

theorem mem_of_pick (hx : c.picks[i]? = some x) : x ∈ c.chain :=
  (picks_sublist c.chain).subset (mem_of_getElem? hx)

theorem header_eq (hdepth : 0 < m.pruningDepth) {pre post : List H}
    (hsplit : c.chain = pre ++ x :: post) (hpre : pre ≠ []) :
    m.headerPruningPoint x = some (c.pick (c.named x)) := by
  obtain ⟨g, pre, rfl⟩ := exists_cons_of_ne_nil hpre
  obtain rfl : g = m.genesisHash := by
    have hgenesis := c.genesis
    rw [hsplit] at hgenesis
    exact some.inj hgenesis
  have hincreasing := c.increasing
  rw [hsplit, pairwise_append] at hincreasing
  -- the picks from `x` on are not below it
  have hpicks : c.picks = m.picks c.blueScore (m.genesisHash :: pre) ++
      records (m.score c.blueScore)
        (reached (m.score c.blueScore) (m.score c.blueScore m.genesisHash) pre) (x :: post) := by
    rw [picks, hsplit, cons_append, PruningPointManager.picks, PruningPointManager.picks,
      records_append, cons_append]
  have hnone : ∀ y ∈ records (m.score c.blueScore)
      (reached (m.score c.blueScore) (m.score c.blueScore m.genesisHash) pre) (x :: post),
      m.deep c.blueScore (c.blueScore x) y = false := by
    intro y hy
    have hle : c.blueScore x ≤ c.blueScore y := by
      rcases mem_cons.mp ((records_sublist _ _).subset hy) with rfl | hy
      · exact le_rfl
      · exact ((pairwise_cons.mp hincreasing.2.1).1 y hy).le
    exact decide_eq_false (by omega)
  rw [c.points _ x post hsplit hpre, pruningPointOf, ← lastPassing_append_of_none hnone, ← hpicks,
    ← c.map_pick, ← c.pick_zero, lastPassing_map_range]
  simp [named, lastBelow, deep]

variable (hm : m.Apart K)

include hm

theorem spaced : Spaced (fun i => c.blueScore (c.pick i)) m.finalityDepth K c.last := by
  have hfinality := hm.finality
  obtain ⟨rest, hchain⟩ := c.exists_cons
  have hpicks : c.picks = m.genesisHash :: records (m.score c.blueScore)
      (m.score c.blueScore m.genesisHash) rest := by
    rw [picks, hchain, PruningPointManager.picks]
  have hzero : m.score c.blueScore m.genesisHash = 0 := by
    rw [score, c.genesisScore, finalityScore, Nat.zero_div]
  intro i hi
  cases i with
  | zero => simp [c.pick_zero, c.genesisScore]
  | succ i =>
    have hx := c.getElem?_picks (c.lt_length hi)
    rw [hpicks, getElem?_cons_succ] at hx
    have hsteps := c.steps
    rw [hchain] at hsteps
    have hrecord := records_spaced (by omega) hsteps hx
    rwa [hzero, Nat.zero_add, Nat.add_comm 1 i] at hrecord

theorem pick_ne {j : ℕ} (hij : i < j) (hj : j ≤ c.last) : c.pick i ≠ c.pick j := by
  intro heq
  have hgap := (c.spaced hm).gap hij hj
  have hfinality := hm.finality
  simp only [heq] at hgap
  omega

theorem named_step {pre after : List H} {y : H} (hsplit : c.chain = pre ++ x :: y :: after) :
    c.named x ≤ c.named y ∧ c.named y ≤ c.named x + 1 := by
  have hsteps := c.steps
  rw [hsplit, isChain_split, isChain_cons_cons] at hsteps
  obtain ⟨hlt, hstep⟩ := hsteps.2.1
  exact (c.spaced hm).lastBelow_step hm.finality.1 m.pruningDepth hlt.le hstep

theorem named_pick (hi : i ≤ c.last) :
    c.named (c.pick i) = i - (m.pruningDepth / m.finalityDepth + 1) :=
  (c.spaced hm).lastBelow_pick hm.low hm.high hi

theorem header_pick (hpos : 0 < i) (hi : i ≤ c.last) : m.headerPruningPoint (c.pick i) =
    some (c.pick (i - (m.pruningDepth / m.finalityDepth + 1))) := by
  obtain ⟨pre, post, hsplit⟩ := append_of_mem (c.mem_of_pick (c.getElem?_picks (c.lt_length hi)))
  have hpre : pre ≠ [] := by
    rintro rfl
    have hgenesis := c.genesis
    rw [hsplit, ← c.pick_zero] at hgenesis
    exact c.pick_ne hm hpos hi (some.inj hgenesis).symm
  rw [c.header_eq hm.finality.2 hsplit hpre, c.named_pick hm hi]

variable [DecidableEq H]

/-- The queue when the blocks `after` have been seen, the tip last. -/
def queueOf (c : m.HeaderChain getParent K) (n : ℕ) : List H → List H
  | [] => []
  | y :: _ => descending c.pick (c.named y) (n + 1 - c.named y)

theorem pushNew_queueOf {n : ℕ} (hle : ∀ x ∈ c.chain, c.named x ≤ n)
    (hlast : ∀ hst ∈ c.chain.getLast?, c.named hst = n) {pre after : List H}
    (hsplit : c.chain = pre ++ x :: after) :
    pushNew (c.queueOf n after) (c.pick (c.named x)) = c.queueOf n (x :: after) := by
  cases after with
  | nil =>
    have hnamed := hlast x (by rw [hsplit]; simp)
    simp [queueOf, pushNew, hnamed, descending]
  | cons y =>
    obtain ⟨hdown, hup⟩ := c.named_step hm hsplit
    exact pushNew_descending (hle y (by rw [hsplit]; simp)) hdown hup fun hlt =>
      c.pick_ne hm hlt (Nat.findGreatest_le _)

/-- The first stage collects the picks from the one that the tip names down. -/
theorem expectedPoints_eq {n : ℕ} (hle : ∀ x ∈ c.chain, c.named x ≤ n)
    (hlast : ∀ hst ∈ c.chain.getLast?, c.named hst = n) {pre : List H} {pp : H} (l after : List H)
    (hsplit : c.chain = pre ++ pp :: (l ++ after)) {current : H}
    (hcurrent : (pp :: l).getLast? = some current) (fuel : ℕ) (hfuel : l.length < fuel) :
    m.expectedPoints getParent pp fuel current (c.queueOf n after) =
      some (c.queueOf n (l ++ after)) := by
  induction l using reverseRecOn generalizing after fuel current with
  | nil =>
    obtain ⟨fuel, rfl⟩ := Nat.exists_eq_succ_of_ne_zero (Nat.ne_of_gt hfuel)
    obtain rfl : pp = current := by simpa using hcurrent
    simp [expectedPoints]
  | append_singleton l x ih =>
    obtain ⟨fuel, rfl⟩ := Nat.exists_eq_succ_of_ne_zero (Nat.ne_zero_of_lt hfuel)
    obtain rfl : x = current := by
      rw [← cons_append, getLast?_concat] at hcurrent
      exact some.inj hcurrent
    rw [append_assoc, singleton_append] at hsplit ⊢
    have hincreasing := c.increasing
    rw [hsplit, pairwise_append] at hincreasing
    have hne : x ≠ pp := by
      rintro rfl
      exact lt_irrefl _ ((pairwise_cons.mp hincreasing.2.1).1 x (by simp))
    obtain hnil | ⟨a, y, hy⟩ := eq_nil_or_concat (pp :: l)
    · cases hnil
    · rw [concat_eq_append] at hy
      have hparent := c.parents (pre ++ a) y x after (by
        rw [hsplit, ← cons_append, hy]
        simp)
      have hbefore : c.chain = (pre ++ pp :: l) ++ x :: after := by
        rw [hsplit, append_assoc, cons_append]
      rw [expectedPoints, if_neg hne, hparent, c.header_eq hm.finality.2 hbefore (by simp)]
      simp only [bind_eq_bind, bind_some, c.pushNew_queueOf hm hle hlast hbefore]
      exact ih (x :: after) hsplit (by rw [hy, getLast?_concat]) fuel (by simpa using hfuel)

theorem comparePoints_eq (idx lo : ℕ) (hidx : idx ≤ c.last)
    (hlisted : ∀ i ≤ idx, ∃ x point, m.pastPruningPoint i = some x ∧
      m.headerPruningPoint x = some point)
    (hlo : lo ≤ idx) (hroom : 0 < idx → lo < idx)
    (hdown : idx - (m.pruningDepth / m.finalityDepth + 1) ≤ lo)
    (hup : lo ≤ idx - (m.pruningDepth / m.finalityDepth + 1) + 1) :
    ∃ accepted, m.comparePoints idx (descending c.pick lo (idx + 1 - lo)) = some accepted ∧
      (accepted = true ↔ ∀ i ≤ idx, m.pastPruningPoint i = some (c.pick i)) := by
  have hquotient : 0 < m.pruningDepth / m.finalityDepth := Nat.div_pos hm.depth m.finalityDepth_pos
  induction idx generalizing lo with
  | zero =>
    obtain rfl : lo = 0 := Nat.le_zero.mp hlo
    obtain ⟨x, point, hpast, hheader⟩ := hlisted 0 le_rfl
    have hqueue : descending c.pick 0 (0 + 1 - 0) = [m.genesisHash] := by
      rw [← c.pick_zero]
      rfl
    refine ⟨decide (m.genesisHash = x), ?_, ?_⟩
    · rw [comparePoints, hpast, hqueue]
      by_cases hx : m.genesisHash = x
      · subst hx
        simp [hheader]
      · simp [hheader, hx]
    · simp [hpast, c.pick_zero, eq_comm]
  | succ idx ih =>
    obtain ⟨x, point, hpast, hheader⟩ := hlisted (idx + 1) le_rfl
    have hlen : idx + 1 + 1 - lo = (idx + 1 - lo) + 1 := by omega
    rw [hlen, descending, Nat.add_sub_cancel' hlo]
    by_cases hx : c.pick (idx + 1) = x
    · have hpick := c.header_pick hm (Nat.succ_pos idx) hidx
      rw [hx, hheader] at hpick
      have hlt := hroom (Nat.succ_pos idx)
      have hrest : descending c.pick lo (idx + 1 - lo) ≠ [] := by
        obtain ⟨n, hn⟩ : ∃ n, idx + 1 - lo = n + 1 := ⟨idx - lo, by omega⟩
        rw [hn]
        simp [descending]
      have hpush := @pushNew_descending H _ c.pick lo idx _ (by omega) hdown hup
        fun hlt => c.pick_ne hm hlt (by omega)
      obtain ⟨accepted, hrun, hiff⟩ := ih (idx + 1 - (m.pruningDepth / m.finalityDepth + 1))
        (by omega) (fun i hi => hlisted i (by omega)) (by omega) (by omega) (by omega) (by omega)
      refine ⟨accepted, ?_, ?_⟩
      · rw [comparePoints, hpast]
        simp only [bind_eq_bind, bind_some, hheader, hx, ne_eq, not_true_eq_false,
          if_false, hrest, some.inj hpick, hpush, hrun]
      · rw [hiff]
        constructor
        · intro hall i hi
          rcases Nat.lt_or_eq_of_le hi with hi' | rfl
          · exact hall i (by omega)
          · rw [hpast, hx]
        · exact fun hall i hi => hall i (by omega)
    · refine ⟨false, ?_, ?_⟩
      · rw [comparePoints, hpast]
        simp [hheader, hx]
      · simp only [Bool.false_eq_true, false_iff, not_forall]
        refine ⟨idx + 1, le_rfl, ?_⟩
        rw [hpast]
        exact fun heq => hx (some.inj heq).symm

/-- The picks, and no other list, pass the check at the last pick that is deep below the tip. -/
theorem past_pruning_points_checked {hst : H} (hhst : c.chain.getLast? = some hst)
    {info : PruningPointInfo H} (hpoint : c.picks[info.index]? = some info.pruningPoint)
    (hdeep : c.blueScore info.pruningPoint + m.pruningDepth ≤ c.blueScore hst)
    (hlast : ∀ i > info.index, ∀ x ∈ c.picks[i]?, c.blueScore hst < c.blueScore x + m.pruningDepth)
    (hlisted : ∀ i ≤ info.index, ∃ x point, m.pastPruningPoint i = some x ∧
      m.headerPruningPoint x = some point) {fuel : ℕ} (hfuel : c.chain.length ≤ fuel) :
    ∃ accepted, m.arePruningPointsInValidChain getParent fuel info hst = some accepted ∧
      (accepted = true ↔ ∀ i ≤ info.index, m.pastPruningPoint i = c.picks[i]?) := by
  have hfinality := hm.finality
  have hdepth := hm.depth
  obtain ⟨hlt, _⟩ := List.getElem?_eq_some_iff.mp hpoint
  have hidx : info.index ≤ c.last := Nat.le_sub_one_of_lt hlt
  have hpick : c.pick info.index = info.pruningPoint :=
    some.inj ((c.getElem?_picks hlt).symm.trans hpoint)
  have hdeeper := fun x {i} => @Spaced.le_lastBelow_iff _ _ _ _ (c.spaced hm) (by omega)
    m.pruningDepth (c.blueScore x) i
  -- the tip names the pick at which the list starts
  have hnamed : c.named hst = info.index := by
    apply le_antisymm
    · by_contra hgt
      have hN : c.named hst ≤ c.last := Nat.findGreatest_le _
      have hle : c.blueScore (c.pick (c.named hst)) + m.pruningDepth ≤ c.blueScore hst :=
        (hdeeper hst (by omega) hN).mp le_rfl
      have habove := hlast _ (not_le.mp hgt) _ (c.getElem?_picks (c.lt_length hN))
      omega
    · exact Nat.le_findGreatest hidx (by simpa only [hpick] using hdeep)
  have hle : ∀ x ∈ c.chain, c.named x ≤ info.index := by
    intro x hx
    obtain ⟨front, hfront⟩ := getLast?_eq_some_iff.mp hhst
    have hxhst : c.blueScore x ≤ c.blueScore hst := by
      have hincreasing := c.increasing
      rw [hfront, pairwise_append] at hincreasing
      rw [hfront] at hx
      rcases mem_append.mp hx with hx | hx
      · exact (hincreasing.2.2 x hx hst (mem_singleton_self hst)).le
      · rw [mem_singleton.mp hx]
    rw [← hnamed]
    exact Nat.findGreatest_mono_left (fun i hi => hi.trans hxhst) _
  obtain ⟨pre, l, hsplit⟩ := append_of_mem (c.mem_of_pick hpoint)
  have hcurrent : (info.pruningPoint :: l).getLast? = some hst := by
    rw [hsplit, getLast?_append_of_ne_nil _ (cons_ne_nil _ _)] at hhst
    exact hhst
  have hqueue := c.expectedPoints_eq hm hle
    (fun x hx => by rw [← hnamed, some.inj (hhst.symm.trans hx)]) l []
    (by rw [append_nil, hsplit]) hcurrent fuel
    (by rw [hsplit] at hfuel; simp at hfuel; omega)
  rw [append_nil] at hqueue
  cases l with
  | nil =>
    obtain rfl : info.pruningPoint = hst := by simpa using hcurrent
    omega
  | cons y =>
    have hstep := c.named_step hm hsplit
    rw [← hpick, c.named_pick hm hidx] at hstep
    have hy : c.named y ≤ info.index := hle y (by rw [hsplit]; simp)
    have hroom : 0 < info.index → c.named y < info.index := by
      intro hpos
      have hsteps := c.steps
      rw [hsplit, isChain_split, isChain_cons_cons] at hsteps
      apply lt_of_le_of_ne hy
      intro heq
      have hfar := (hdeeper y hpos hidx).mp heq.ge
      simp only [hpick] at hfar
      omega
    obtain ⟨accepted, hrun, hiff⟩ := c.comparePoints_eq hm info.index (c.named y) hidx hlisted hy
      hroom hstep.1 hstep.2
    refine ⟨accepted, ?_, ?_⟩
    · simp only [queueOf] at hqueue
      rw [arePruningPointsInValidChain, hqueue]
      exact hrun
    · rw [hiff]
      apply forall_congr'
      intro i
      apply imp_congr_right
      intro hi
      rw [c.getElem?_picks (by omega)]

end HeaderChain

/-- A chain of blocks one blue score apart, with the right list of past pruning points. -/
def unitManager (F P : ℕ) : PruningPointManager ℕ where
  pruningDepth := P
  finalityDepth := F + 1
  finalityDepth_pos := Nat.succ_pos F
  genesisHash := 0
  isChainAncestorOf := fun x y => some (decide (x ≤ y))
  isDagAncestorOfResult := fun x y => some (decide (x ≤ y))
  getNextChainAncestor := fun _ x => some (x + 1)
  ghostdagBlueScore := some
  headerBlueScore := some
  headerPruningPoint := fun x => some ((x - P) / (F + 1) * (F + 1))
  pastPruningPoint := fun i => some (i * (F + 1))

theorem split_range {n x : ℕ} {pre post : List ℕ} (h : List.range n = pre ++ x :: post) :
    x < n ∧ pre = List.range x := by
  have hlen : n = pre.length + (post.length + 1) := by
    rw [← length_range (n := n), h, length_append, length_cons]
  have hx : (List.range n)[pre.length]? = some x := by rw [h]; simp
  have hpre : (List.range n).take pre.length = pre := by rw [h]; simp
  rw [getElem?_range (by omega)] at hx
  obtain rfl := some.inj hx
  rw [take_range, Nat.min_eq_left (by omega)] at hpre
  exact ⟨by omega, hpre.symm⟩

def unitChain (F P n : ℕ) (hpoints : ∀ x ≤ n, 0 < x → (unitManager F P).headerPruningPoint x =
      some ((unitManager F P).pruningPointOf id x (List.range x))) :
    (unitManager F P).HeaderChain (fun x => some (x - 1)) 0 where
  chain := List.range (n + 1)
  blueScore := id
  genesis := by simp [range_succ_eq_map, unitManager]
  genesisScore := rfl
  steps := by
    rw [isChain_iff_getElem]
    intro i hi
    simp
  parents := by
    intro pre x y post hsplit
    have hnext := (@split_range (n + 1) y (pre ++ [x]) post (by simpa using hsplit)).2
    have hlen := congrArg List.length hnext
    rw [(split_range hsplit).2] at hlen
    simp at hlen
    simp [← hlen]
  points := by
    intro pre x post hsplit hpre
    obtain ⟨hx, rfl⟩ := split_range hsplit
    apply hpoints x (Nat.le_of_lt_succ hx)
    apply Nat.pos_of_ne_zero
    rintro rfl
    exact hpre rfl

theorem unitManager_accepted : ∃ accepted, (unitManager 1 3).arePruningPointsInValidChain
    (fun x => some (x - 1)) 9 ⟨4, 4, 2⟩ 8 =
      some accepted ∧ (accepted = true ↔ ∀ i ≤ 2, (unitManager 1 3).pastPruningPoint i =
        ((unitManager 1 3).picks id (List.range 9))[i]?) := by
  apply (unitChain 1 3 8 (by decide)).past_pruning_points_checked ⟨by decide, by decide, by decide⟩
  case hlast =>
    have hpicks : (unitChain 1 3 8 (by decide)).picks = [0, 2, 4, 6, 8] := by decide
    intro i hi x hx
    change 2 < i at hi
    rw [hpicks] at hx
    obtain ⟨i, rfl⟩ := Nat.exists_eq_add_of_lt hi
    rcases i with _ | _ | i
    · obtain rfl := some.inj hx
      decide
    · obtain rfl := some.inj hx
      decide
    · have hlt := (List.getElem?_eq_some_iff.mp hx).1
      simp at hlt
      omega
  case hlisted => exact fun i _ => ⟨_, _, rfl, rfl⟩
  all_goals decide

/-- The right list is refused at a pick below the last deep one, and with a pruning depth below
the finality depth. -/
theorem right_points_refused :
    (∃ c : (unitManager 1 3).HeaderChain (fun x => some (x - 1)) 0, c.chain = List.range 9 ∧
      c.picks = [0, 2, 4, 6, 8] ∧
      (unitManager 1 3).arePruningPointsInValidChain (fun x => some (x - 1)) 9 ⟨2, 2, 1⟩ 8 =
        some false) ∧
    ∃ c : (unitManager 2 1).HeaderChain (fun x => some (x - 1)) 0, c.chain = List.range 5 ∧
      c.picks = [0, 3] ∧
      (unitManager 2 1).arePruningPointsInValidChain (fun x => some (x - 1)) 5 ⟨3, 3, 1⟩ 4 =
        some false :=
  ⟨⟨unitChain 1 3 8 (by decide), rfl, by decide, by decide⟩,
    unitChain 2 1 4 (by decide), rfl, by decide, by decide⟩

end PruningPointManager
end CryptixAtomic.Pruning
