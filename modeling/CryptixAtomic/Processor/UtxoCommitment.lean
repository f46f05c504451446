import CryptixAtomic.Chain.MuHash
import CryptixAtomic.Processor.SingleAcceptance

/-!
# The multiset hash follows the UTXO set

Processing a chain block updates the multiset hash of its selected parent transaction by
transaction. A node undoes and redoes stored differences, computes new blocks and moves the
virtual UTXO set. In every state it reaches, the hash stored for a block is that of the set
which the differences from genesis lead to.
-/
namespace CryptixAtomic.Processor

open Foundation Transition MuHash List Relation

section Hashed

variable (blake2b : Blake2b) (params : AtomicParams) (v : ValidatorParams) {G : Type}
  [AddCommGroup G] (element : List UInt8 → G)

def hashAccepted (povDaaScore : ℕ) (hash : G) (p : ValidatedTransaction × ℕ) : G :=
  addTransaction element hash p.1.ptx.populatedInputs p.1.ptx.tx povDaaScore

/-- The computation of a chain block with its multiset hash, which starts as that of the
selected parent. -/
def calculateUtxoStateHashed (selectedParentView : UtxoView)
    (selectedParentState : AtomicConsensusState) (c : ChainBlock) (multisetHash : G) :
    Except UtxoAlgebraError (UtxoProcessingContext × G) :=
  calculateUtxoStateWith blake2b params v (hashAccepted element c.povDaaScore) selectedParentView
    selectedParentState c
    (addTransaction element multisetHash [] c.selectedParent.coinbase c.povDaaScore)

end Hashed

section Hashed

variable {blake2b : Blake2b} {params : AtomicParams} {base : UtxoView} {povDaaScore : ℕ}
  {utxo utxo' : UtxoCollection} {G : Type} [AddCommGroup G] (element : List UInt8 → G)

theorem BlockRun.hash {ctx : AtomicCreationContext} {b b' : BlockLoop}
    {accepted : List (ValidatedTransaction × ℕ)}
    (h : BlockRun blake2b params base povDaaScore ctx utxo b accepted utxo' b') :
    accepted.foldl (hashAccepted element povDaaScore) (ofUtxoSet element utxo) =
      ofUtxoSet element utxo' := by
  induction h with
  | nil => rfl
  | cons step rest ih =>
    rw [foldl_cons, hashAccepted,
      addTransaction_ofUtxoSet element povDaaScore step.unspent step.distinct step.fresh]
    exact ih

theorem MergeRun.hash {m m' : UtxoProcessingContext} {trace : List BlockTrace}
    (h : MergeRun blake2b params base povDaaScore utxo m trace utxo' m') :
    (validatedOf trace).foldl (hashAccepted element povDaaScore)
      (ofUtxoSet element utxo) = ofUtxoSet element utxo' := by
  induction h with
  | nil => rfl
  | cons run indices tail ih =>
    rw [validatedOf_cons, foldl_append, run.hash element]
    exact ih

theorem hash_coinbase {tx : Transaction} (daaScore : ℕ) (hinputs : tx.inputs = [])
    (hfresh : ∀ i, utxo.lookup (tx.outpoint i) = none) :
    addTransaction element (ofUtxoSet element utxo) [] tx daaScore =
      ofUtxoSet element (utxo.applyTransaction tx daaScore) := by
  rw [addTransaction, List.foldl_nil, foldl_addUtxo, ofUtxoSet_eq, ofUtxoSet_eq,
    total_coinbase _ daaScore hinputs hfresh]

end Hashed

/-- Every entry is that of an output of one of the transactions `known`. -/
def MintedBy (known : Transaction → Prop) (utxo : UtxoCollection) : Prop :=
  ∀ o e, utxo.lookup o = some e → ∃ tx i output, known tx ∧ tx.outputs[i]? = some output ∧
    o = tx.outpoint i ∧
    e = ⟨output.value, output.scriptPublicKey, e.blockDaaScore, tx.isCoinbase⟩

section Minted

variable {known : Transaction → Prop} {utxo : UtxoCollection} {blake2b : Blake2b}
  {params : AtomicParams}

theorem MintedBy.apply (h : MintedBy known utxo) {tx : Transaction} (htx : known tx)
    (daaScore : ℕ) : MintedBy known (utxo.applyTransaction tx daaScore) := by
  intro o e he
  rcases lookup_apply_cases he with ⟨i, output, houtput, ho, rfl⟩ | ⟨-, hold⟩
  · exact ⟨tx, i, output, htx, houtput, ho, rfl⟩
  · exact h o e hold

theorem MintedBy.run {j l : JointState} {events : List JointEvent}
    (hrun : JointRun blake2b params j events l) (h : MintedBy known j.utxo)
    (hknown : ∀ tx ∈ eventTxs events, known tx) : MintedBy known l.utxo := by
  induction hrun with
  | nil => exact h
  | @cons j k l e es step rest ih =>
    cases step with
    | newBlock => exact ih h hknown
    | coinbase | accepted =>
      apply ih (h.apply (hknown _ mem_cons_self) _)
      intro tx htx
      exact hknown tx (mem_cons_of_mem _ htx)

/-- Ids without collisions make entries of one outpoint differ in their scores only. -/
theorem MintedBy.told {utxo' : UtxoCollection} (h : MintedBy known utxo)
    (h' : MintedBy known utxo') (hids : ∀ tx tx', known tx → known tx' → tx.id = tx'.id → tx = tx')
    {o : TransactionOutpoint} {e e' : UtxoEntry} (he : utxo.lookup o = some e)
    (he' : utxo'.lookup o = some e') (hscore : e.blockDaaScore = e'.blockDaaScore) : e = e' := by
  obtain ⟨tx, i, output, htx, houtput, ho, heq⟩ := h o e he
  obtain ⟨tx', i', output', htx', houtput', ho', heq'⟩ := h' o e' he'
  have hsame := ho.symm.trans ho'
  obtain rfl := hids tx tx' htx htx' (congrArg TransactionOutpoint.transactionId hsame)
  obtain rfl : i = i' := congrArg TransactionOutpoint.index hsame
  rw [houtput, Option.some.injEq] at houtput'
  rw [heq, heq', hscore, houtput']

end Minted

/-- The chain blocks with their mergesets. -/
structure MergesetTree where
  genesis : Bytes32
  mergeset : Bytes32 → ChainBlock

variable {b : Bytes32} {chain : List ChainBlock}

namespace MergesetTree

variable (tree : MergesetTree)

def parent (b : Bytes32) : Bytes32 := (tree.mergeset b).selectedParent.ctx.sourceBlockHash

/-- The mergesets from genesis to a block. -/
inductive ChainTo : Bytes32 → List ChainBlock → Prop
  | genesis : ChainTo tree.genesis []
  | step {b : Bytes32} {chain : List ChainBlock} (above : b ≠ tree.genesis)
      (rest : ChainTo (tree.parent b) chain) : ChainTo b (chain ++ [tree.mergeset b])

def Known (tx : Transaction) : Prop := ∃ b, tx ∈ chainTransactions [tree.mergeset b]

/-- What the pipeline promises of every chain of the tree, and of the ids of all its
transactions. -/
structure Ok : Prop where
  chains : ∀ b chain, tree.ChainTo b chain → ChainOk [] chain
  ids : ∀ tx tx', tree.Known tx → tree.Known tx' → tx.id = tx'.id → tx = tx'

variable {tree}

theorem ChainTo.unique {chain' : List ChainBlock} (h : tree.ChainTo b chain)
    (h' : tree.ChainTo b chain') : chain = chain' := by
  induction h generalizing chain' with
  | genesis =>
    cases h' with
    | genesis => rfl
    | step above => exact absurd rfl above
  | step above rest ih =>
    cases h' with
    | genesis => exact absurd rfl above
    | step above' rest' => rw [ih rest']

theorem ChainTo.known (h : tree.ChainTo b chain)
    {tx : Transaction} (htx : tx ∈ chainTransactions chain) : tree.Known tx := by
  induction h with
  | genesis => cases htx
  | @step b chain above rest ih =>
    rw [chainTransactions, flatMap_append, mem_append] at htx
    rcases htx with htx | htx
    · exact ih htx
    · exact ⟨b, htx⟩

end MergesetTree

section States

variable (blake2b : Blake2b) (params : AtomicParams) (v : ValidatorParams) (tree : MergesetTree)

/-- The state that the mergeset differences from genesis to a block lead to. -/
def StateAt (b : Bytes32) (j : JointState) : Prop :=
  ∃ chain, tree.ChainTo b chain ∧ advanceAll blake2b params v ⟨∅, .default⟩ chain = .ok j

end States

section States

variable {blake2b : Blake2b} {params : AtomicParams} {v : ValidatorParams} {tree : MergesetTree}

theorem StateAt.unique {j k : JointState} (h : StateAt blake2b params v tree b j)
    (h' : StateAt blake2b params v tree b k) : j = k := by
  obtain ⟨chain, hchain, hj⟩ := h
  obtain ⟨chain', hchain', hk⟩ := h'
  rw [hchain.unique hchain', hk] at hj
  exact (Except.ok.inj hj).symm

theorem MergesetTree.ChainTo.exists_state (hok : tree.Ok) (h : tree.ChainTo b chain) :
    ∃ j, StateAt blake2b params v tree b j := by
  obtain ⟨j, _, _, hrun, -⟩ := @exists_chainRun blake2b params v _ [] chain Bound.genesis
    History.empty (hok.chains b chain h)
  exact ⟨j, chain, h, hrun.advanceAll⟩

theorem StateAt.minted (hok : tree.Ok) {j : JointState}
    (h : StateAt blake2b params v tree b j) : MintedBy tree.Known j.utxo := by
  obtain ⟨chain, hchain, hj⟩ := h
  obtain ⟨l, events, -, hrun, -, -⟩ := @exists_chainRun blake2b params v _ [] chain Bound.genesis
    History.empty (hok.chains b chain hchain)
  obtain rfl : l = j := Except.ok.inj (hrun.advanceAll.symm.trans hj)
  apply MintedBy.run hrun.jointRun
  · intro o e he
    cases he
  · intro tx htx
    exact hchain.known (hrun.mem_chainTransactions htx)

theorem advanceAll_append {j k : JointState} {c : ChainBlock}
    (h : advanceAll blake2b params v j chain = .ok k) :
    advanceAll blake2b params v j (chain ++ [c]) = advance blake2b params v k c := by
  induction chain generalizing j with
  | nil =>
    obtain rfl : j = k := Except.ok.inj h
    rw [nil_append, advanceAll]
    cases advance blake2b params v j c <;> rfl
  | cons c' chain ih =>
    rw [advanceAll, except_bind_eq_ok] at h
    obtain ⟨m, hm, hrest⟩ := h
    rw [cons_append, advanceAll, hm]
    exact ih hrest

theorem StateAt.bound (hok : tree.Ok) {j : JointState} (h : StateAt blake2b params v tree b j) :
    Bound j := by
  obtain ⟨chain, hchain, hj⟩ := h
  obtain ⟨l, _, _, hrun, hbound, -⟩ := @exists_chainRun blake2b params v _ [] chain Bound.genesis
    History.empty (hok.chains b chain hchain)
  obtain rfl : l = j := Except.ok.inj (hrun.advanceAll.symm.trans hj)
  exact hbound

/-- The next chain block meets what processing it takes for granted. -/
theorem StateAt.ready (hok : tree.Ok) {b : Bytes32} {j : JointState} (hb : b ≠ tree.genesis)
    (h : StateAt blake2b params v tree (tree.parent b) j) :
    ∃ past, History past j.utxo ∧ ChainOk past [tree.mergeset b] := by
  obtain ⟨chain, hchain, hj⟩ := h
  obtain ⟨l, events, past, hrun, -, hhistory, hrest⟩ :=
    @exists_chainRun_append blake2b params v _ [] chain [tree.mergeset b] Bound.genesis
      History.empty (hok.chains b _ (.step hb hchain))
  obtain rfl : l = j := Except.ok.inj (hrun.advanceAll.symm.trans hj)
  exact ⟨past, hhistory, hrest⟩

/-- One more chain block: what processing computes for it, with or without the hash, and with
the state of its selected parent in memory or over a store. -/
theorem StateAt.step (hok : tree.Ok) {b : Bytes32} {j : JointState} (hb : b ≠ tree.genesis)
    (h : StateAt blake2b params v tree (tree.parent b) j) :
    ∃ m k, calculateUtxoState blake2b params v j.utxo.lookup j.atomic (tree.mergeset b) = .ok m ∧
      StateAt blake2b params v tree b k ∧ k.atomic = m.atomicState ∧
      m.mergesetDiff.From j.utxo.lookup k.utxo.lookup ∧
      (∀ {G : Type} [AddCommGroup G] (element : List UInt8 → G),
        calculateUtxoStateHashed blake2b params v element j.utxo.lookup j.atomic (tree.mergeset b)
          (ofUtxoSet element j.utxo) = .ok (m, ofUtxoSet element k.utxo)) ∧
      ∀ s, s.content = j.atomic.content → ∃ m',
        calculateUtxoState blake2b params v j.utxo.lookup s (tree.mergeset b) = .ok m' ∧
          m'.mergesetDiff = m.mergesetDiff ∧ m'.atomicState.content = k.atomic.content := by
  obtain ⟨past, hhistory, hready⟩ := h.ready hok hb
  obtain ⟨m, diff, trace, utxo, hcomputed, hstart, hprocessed, -, -, -, -, hwith, halike⟩ :=
    calculateUtxoState_run blake2b params v (h.bound hok) hhistory hready
  obtain ⟨chain, hchain, hj⟩ := h
  have hfrom := hprocessed.sound.from_shows hprocessed.shows
  refine ⟨_, ⟨utxo, m.atomicState⟩, hcomputed, ⟨_, .step hb hchain, ?_⟩, rfl, hfrom, ?_, halike⟩
  · rw [advanceAll_append hj, advance, hcomputed]
    change Except.ok (JointState.mk (m.mergesetDiff.applyTo j.utxo) m.atomicState) = _
    rw [hfrom.applyTo_eq]
  · intro G _ element
    rw [calculateUtxoStateHashed, hash_coinbase element _ hprocessed.noInputs hprocessed.fresh,
      hwith G _ _, hprocessed.run.hash element]

theorem exists_walk (hok : tree.Ok) {base : UtxoCollection} (hbase : MintedBy tree.Known base)
    {j k : JointState} {c : Bytes32} (hj : StateAt blake2b params v tree b j) {diff d : UtxoDiff}
    (hfrom : diff.From base.lookup j.utxo.lookup) (hk : StateAt blake2b params v tree c k)
    (hd : d.From j.utxo.lookup k.utxo.lookup) :
    ∃ r, diff.withDiffInPlace d = .ok r ∧ r.From base.lookup k.utxo.lookup := by
  have htold : UtxoDiff.ToldByScore [base, j.utxo, k.utxo] := by
    have hminted : ∀ s ∈ [base, j.utxo, k.utxo], MintedBy tree.Known s := by
      intro s hs
      simp only [mem_cons, not_mem_nil, or_false] at hs
      rcases hs with rfl | rfl | rfl
      · exact hbase
      · exact hj.minted hok
      · exact hk.minted hok
    intro s hs t ht o e e' he he' hscore
    exact (hminted s hs).told (hminted t ht) hok.ids he he' hscore
  exact UtxoDiff.withDiffInPlace_from hfrom hd htold.entries

theorem walk_from (hok : tree.Ok) {base : UtxoCollection} (hbase : MintedBy tree.Known base)
    {j k : JointState} {c : Bytes32} (hj : StateAt blake2b params v tree b j) {diff d r : UtxoDiff}
    (hfrom : diff.From base.lookup j.utxo.lookup) (hk : StateAt blake2b params v tree c k)
    (hd : d.From j.utxo.lookup k.utxo.lookup) (hwalked : diff.withDiffInPlace d = .ok r) :
    r.From base.lookup k.utxo.lookup := by
  obtain ⟨r', hr, hr'⟩ := exists_walk hok hbase hj hfrom hk hd
  rw [hwalked, Except.ok.injEq] at hr
  rwa [hr]

end States

/-- What a node keeps of a chain block. -/
structure StoredBlock (G : Type) where
  diff : UtxoDiff
  multisetHash : G
  atomicState : AtomicConsensusState

/-- A node on its way through the tree: the stored blocks, the virtual UTXO set, and the
block it stands at with the difference from the virtual set. -/
structure UtxoNode (G : Type) where
  stored : Bytes32 → Option (StoredBlock G)
  virtualUtxo : UtxoCollection
  point : Bytes32
  diff : UtxoDiff

section Nodes

variable (blake2b : Blake2b) (params : AtomicParams) (v : ValidatorParams) {G : Type}
  [AddCommGroup G] (element : List UInt8 → G) (tree : MergesetTree)

def UtxoNode.start : UtxoNode G where
  stored := Function.update (fun _ => none) tree.genesis (some ⟨.empty, 0, .default⟩)
  virtualUtxo := ∅
  point := tree.genesis
  diff := .empty

inductive NodeStep : UtxoNode G → UtxoNode G → Prop
  /-- Towards the selected parent, along a stored difference. -/
  | undo {n : UtxoNode G} {s : StoredBlock G} {diff : UtxoDiff} (above : n.point ≠ tree.genesis)
      (stored : n.stored n.point = some s)
      (walked : n.diff.withDiffInPlace s.diff.reversed = .ok diff) :
      NodeStep n { n with point := tree.parent n.point, diff := diff }
  /-- To a child that has been computed before. -/
  | redo {n : UtxoNode G} {b : Bytes32} {s : StoredBlock G} {diff : UtxoDiff}
      (above : b ≠ tree.genesis) (parent : tree.parent b = n.point) (stored : n.stored b = some s)
      (walked : n.diff.withDiffInPlace s.diff = .ok diff) :
      NodeStep n { n with point := b, diff := diff }
  /-- To a child that is computed now. -/
  | compute {n : UtxoNode G} {b : Bytes32} {s : StoredBlock G} {m : UtxoProcessingContext}
      {multisetHash : G} {diff : UtxoDiff} (above : b ≠ tree.genesis)
      (parent : tree.parent b = n.point) (stored : n.stored n.point = some s)
      (computed : calculateUtxoStateHashed blake2b params v element
        (n.diff.compose n.virtualUtxo.lookup) s.atomicState (tree.mergeset b) s.multisetHash =
          .ok (m, multisetHash))
      (walked : n.diff.withDiffInPlace m.mergesetDiff = .ok diff) :
      NodeStep n
        { stored := Function.update n.stored b (some ⟨m.mergesetDiff, multisetHash, m.atomicState⟩)
          virtualUtxo := n.virtualUtxo
          point := b
          diff := diff }
  /-- The virtual block, whose mergeset stands at the hash `w`, on top of the block reached. -/
  | commitVirtual {n : UtxoNode G} {w : Bytes32} {s : StoredBlock G} {m : UtxoProcessingContext}
      {diff : UtxoDiff} (above : w ≠ tree.genesis) (parent : tree.parent w = n.point)
      (stored : n.stored n.point = some s)
      (computed : calculateUtxoState blake2b params v (n.diff.compose n.virtualUtxo.lookup)
        s.atomicState (tree.mergeset w) = .ok m)
      (walked : n.diff.withDiffInPlace m.mergesetDiff = .ok diff) :
      NodeStep n { n with virtualUtxo := diff.applyTo n.virtualUtxo, diff := m.mergesetDiff.reversed }

structure StoredBlock.Right (b : Bytes32) (s : StoredBlock G) (j : JointState) : Prop where
  state : StateAt blake2b params v tree b j
  atomic : s.atomicState = j.atomic
  hash : s.multisetHash = ofUtxoSet element j.utxo
  diff : b ≠ tree.genesis → ∃ k, StateAt blake2b params v tree (tree.parent b) k ∧
    s.diff.From k.utxo.lookup j.utxo.lookup

structure UtxoNode.Right (n : UtxoNode G) : Prop where
  stored : ∀ b s, n.stored b = some s → ∃ j, s.Right blake2b params v element tree b j
  point : ∃ j, StateAt blake2b params v tree n.point j ∧
    n.diff.From n.virtualUtxo.lookup j.utxo.lookup
  minted : MintedBy tree.Known n.virtualUtxo

end Nodes

section Nodes

variable {blake2b : Blake2b} {params : AtomicParams} {v : ValidatorParams} {G : Type}
  [AddCommGroup G] {element : List UInt8 → G} {tree : MergesetTree} {n n' : UtxoNode G}

theorem UtxoNode.start_right : (UtxoNode.start tree).Right blake2b params v element tree := by
  have hgenesis : StateAt blake2b params v tree tree.genesis ⟨∅, .default⟩ := ⟨[], .genesis, rfl⟩
  constructor
  · intro b s hs
    simp only [UtxoNode.start, Function.update_apply] at hs
    split_ifs at hs with hb
    obtain rfl := Option.some.inj hs
    subst hb
    exact ⟨_, hgenesis, rfl, by rw [ofUtxoSet_eq, FMap.total_empty], fun hne => absurd rfl hne⟩
  · refine ⟨_, hgenesis, ?_⟩
    constructor <;> intro o <;> simp [UtxoNode.start, UtxoDiff.empty]
  · intro o e he
    cases he

theorem exists_compute (hok : tree.Ok) (h : n.Right blake2b params v element tree)
    {s : StoredBlock G} (hs : n.stored n.point = some s) {b : Bytes32} (hb : b ≠ tree.genesis)
    (hparent : tree.parent b = n.point) :
    ∃ n', NodeStep blake2b params v element tree n n' ∧ n'.point = b ∧
      (n'.stored b).isSome = true := by
  obtain ⟨j, hj, hfrom⟩ := h.point
  obtain ⟨l, hright⟩ := h.stored _ _ hs
  obtain rfl := hright.state.unique hj
  rw [← hparent] at hj
  obtain ⟨m, k, -, hk, -, hdiff, hhashed, -⟩ := hj.step hok hb
  obtain ⟨diff, hwalked, -⟩ := exists_walk hok h.minted hj hfrom hk hdiff
  have hcomputed := @hhashed G _ element
  rw [← hfrom.compose, ← hright.atomic, ← hright.hash] at hcomputed
  exact ⟨_, .compute hb hparent hs hcomputed hwalked, rfl, by simp⟩

theorem NodeStep.right (hok : tree.Ok) (hstep : NodeStep blake2b params v element tree n n')
    (h : n.Right blake2b params v element tree) : n'.Right blake2b params v element tree := by
  obtain ⟨j, hj, hfrom⟩ := h.point
  cases hstep with
  | @undo s diff above stored walked =>
    obtain ⟨l, hs⟩ := h.stored _ _ stored
    obtain rfl := hs.state.unique hj
    obtain ⟨k, hk, hdiff⟩ := hs.diff above
    exact ⟨h.stored, ⟨k, hk, walk_from hok h.minted hj hfrom hk hdiff.reversed walked⟩, h.minted⟩
  | @redo b s diff above parent stored walked =>
    obtain ⟨k, hs⟩ := h.stored _ _ stored
    obtain ⟨l, hl, hdiff⟩ := hs.diff above
    rw [parent] at hl
    obtain rfl := hl.unique hj
    exact ⟨h.stored, ⟨k, hs.state, walk_from hok h.minted hj hfrom hs.state hdiff walked⟩, h.minted⟩
  | @compute b s m multisetHash diff above parent stored computed walked =>
    obtain ⟨l, hs⟩ := h.stored _ _ stored
    obtain rfl := hs.state.unique hj
    rw [← parent] at hj
    obtain ⟨m', k, -, hk, hatomic, hdiff, hhashed, -⟩ := hj.step hok above
    rw [hfrom.compose, hs.atomic, hs.hash, hhashed element, Except.ok.injEq,
      Prod.mk.injEq] at computed
    obtain ⟨rfl, rfl⟩ := computed
    refine ⟨?_, ⟨k, hk, walk_from hok h.minted hj hfrom hk hdiff walked⟩, h.minted⟩
    intro c t ht
    simp only [Function.update_apply] at ht
    split_ifs at ht with hc
    · obtain rfl := Option.some.inj ht
      subst hc
      exact ⟨k, hk, hatomic.symm, rfl, fun _ => ⟨_, hj, hdiff⟩⟩
    · exact h.stored c t ht
  | @commitVirtual w s m diff above parent stored computed walked =>
    obtain ⟨l, hs⟩ := h.stored _ _ stored
    obtain rfl := hs.state.unique hj
    rw [← parent] at hj
    obtain ⟨m', k, hcomputed, hk, -, hdiff, -⟩ := hj.step hok above
    rw [hfrom.compose, hs.atomic, hcomputed, Except.ok.injEq] at computed
    obtain rfl := computed
    have hwalk := walk_from hok h.minted hj hfrom hk hdiff walked
    have hvirtual : diff.applyTo n.virtualUtxo = k.utxo := hwalk.applyTo_eq
    refine ⟨h.stored, ⟨l, hs.state, ?_⟩, ?_⟩
    · change m'.mergesetDiff.reversed.From (diff.applyTo n.virtualUtxo).lookup l.utxo.lookup
      rw [hvirtual]
      exact hdiff.reversed
    · change MintedBy tree.Known (diff.applyTo n.virtualUtxo)
      rw [hvirtual]
      exact hk.minted hok

/-- However a node has moved through the tree, the hash stored for a block is the one built
by adding every entry of the UTXO set that the differences from genesis lead to; and the
bytes of its elements tell UTXO sets apart. -/
theorem multiset_hash_tracks_utxo_set (hok : tree.Ok)
    (hreached : ReflTransGen (NodeStep blake2b params v element tree)
      (UtxoNode.start tree) n) :
    (∀ b s, n.stored b = some s → ∃ chain j, tree.ChainTo b chain ∧
      advanceAll blake2b params v ⟨∅, .default⟩ chain = .ok j ∧
      s.multisetHash = ofUtxoSet element j.utxo) ∧
    (∀ o e o' e', UtxoFits o e → UtxoFits o' e' → writeUtxo e o = writeUtxo e' o' →
      (o, e) = (o', e')) ∧
    ∀ utxo utxo' : UtxoCollection, (∀ o e, utxo.lookup o = some e → UtxoFits o e) →
      (∀ o e, utxo'.lookup o = some e → UtxoFits o e) → utxo ≠ utxo' →
      ¬(utxoElements utxo).Perm (utxoElements utxo') := by
  have hright : n.Right blake2b params v element tree := by
    induction hreached with
    | refl => exact UtxoNode.start_right
    | tail _ step ih => exact step.right hok ih
  refine ⟨?_, ?_, ?_⟩
  · intro b s hs
    obtain ⟨j, ⟨chain, hchain, hj⟩, -, hhash, -⟩ := hright.stored b s hs
    exact ⟨chain, j, hchain, hj, hhash⟩
  · intro o e o' e' h h' heq
    obtain ⟨rfl, rfl⟩ := writeUtxo_inj h h' heq
    rfl
  · intro utxo utxo' h h' hne hperm
    exact hne (utxoElements_inj h h' hperm)

end Nodes

section Samples

open AtomicConsensusState

/-- The chain that creates a pool, and a fork of its last block, which creates it later. Other
hashes lead nowhere. -/
def poolTree : MergesetTree where
  genesis := sampleId 200
  mergeset b := if b = sampleId 201 then ⟨rewardBlock, [], 1⟩
    else if b = sampleId 202 then ⟨poolBlock, [], 2⟩
    else if b = sampleId 203 then ⟨poolBlock, [], 3⟩
    else ⟨⟨⟨b, 0, 0⟩, rewardBlock.coinbase, []⟩, [], 0⟩

def forkChain : List ChainBlock := [⟨rewardBlock, [], 1⟩, ⟨poolBlock, [], 3⟩]

def poolTreeChains : List (Bytes32 × List ChainBlock) :=
  [(sampleId 200, []), (sampleId 201, [⟨rewardBlock, [], 1⟩]), (sampleId 202, poolChain),
    (sampleId 203, forkChain)]

theorem poolTree_chains (h : poolTree.ChainTo b chain) : (b, chain) ∈ poolTreeChains := by
  induction h with
  | genesis => exact mem_cons_self
  | @step b chain above rest ih =>
    have hhashes : ∀ e ∈ poolTreeChains, e.1 = sampleId 200 ∨
        e.1 ∈ [sampleId 201, sampleId 202, sampleId 203] := by
      decide
    by_cases hb : b ∈ [sampleId 201, sampleId 202, sampleId 203]
    · have hnext : ∀ b ∈ [sampleId 201, sampleId 202, sampleId 203], ∀ e ∈ poolTreeChains,
          e.1 = poolTree.parent b → (b, e.2 ++ [poolTree.mergeset b]) ∈ poolTreeChains := by
        decide +kernel
      exact hnext b hb _ ih rfl
    · -- such a block would be its own parent
      have hparent : poolTree.parent b = b := by
        simp_all [MergesetTree.parent, poolTree]
      rw [hparent] at ih
      rcases hhashes _ ih with hgenesis | hmem
      · exact absurd hgenesis above
      · exact absurd hmem hb

theorem poolTree_known {tx : Transaction} (h : poolTree.Known tx) :
    tx ∈ rewardBlock.coinbase :: poolBlock.transactions := by
  obtain ⟨b, hb⟩ := h
  simp only [poolTree, chainTransactions, ChainBlock.blocks] at hb
  split_ifs at hb <;> simp only [flatMap_singleton] at hb
  · exact mem_singleton.mp hb ▸ mem_cons_self
  · exact mem_cons_of_mem _ hb
  · exact mem_cons_of_mem _ hb
  · exact mem_singleton.mp hb ▸ mem_cons_self

theorem poolTree_ok : poolTree.Ok := by
  constructor
  · intro b chain hchain
    have hall : ∀ e ∈ poolTreeChains, ChainOk [] e.2 := by decide +kernel
    exact hall _ (poolTree_chains hchain)
  · intro tx tx' htx htx'
    have hids : ∀ tx ∈ rewardBlock.coinbase :: poolBlock.transactions,
        ∀ tx' ∈ rewardBlock.coinbase :: poolBlock.transactions, tx.id = tx'.id → tx = tx' := by
      decide +kernel
    exact hids tx (poolTree_known htx) tx' (poolTree_known htx')

theorem poolTree_chainTo {e : Bytes32 × List ChainBlock} (he : e ∈ poolTreeChains) :
    poolTree.ChainTo e.1 e.2 := by
  have hstep : ∀ b chain c, b ≠ poolTree.genesis → poolTree.mergeset b = c →
      poolTree.ChainTo c.selectedParent.ctx.sourceBlockHash chain →
        poolTree.ChainTo b (chain ++ [c]) := by
    rintro b chain c hb rfl hrest
    exact .step hb hrest
  have hfirst := hstep (sampleId 201) [] ⟨rewardBlock, [], 1⟩ (by decide) (by decide +kernel)
    .genesis
  simp only [poolTreeChains, mem_cons, not_mem_nil, or_false] at he
  rcases he with rfl | rfl | rfl | rfl
  · exact .genesis
  · exact hfirst
  · exact hstep (sampleId 202) _ ⟨poolBlock, [], 2⟩ (by decide) (by decide +kernel) hfirst
  · exact hstep (sampleId 203) _ ⟨poolBlock, [], 3⟩ (by decide) (by decide +kernel) hfirst

/-- A hash that counts the bytes of its elements. -/
def byteCount (bytes : List UInt8) : ℤ := bytes.length

/-- A node that has computed both blocks of the chain, the second of which spends the reward of
the first and creates a vault. -/
theorem poolTree_hash_tracks : ∃ (n : UtxoNode ℤ) (s : StoredBlock ℤ) (j : JointState),
    ReflTransGen (NodeStep zeroHash sampleParams sampleValidator byteCount poolTree)
      (UtxoNode.start poolTree) n ∧ n.stored (sampleId 202) = some s ∧
    advanceAll zeroHash sampleParams sampleValidator ⟨∅, .default⟩ poolChain = .ok j ∧
    j.utxo.lookup ⟨sampleId 200, 0⟩ = none ∧ (j.utxo.lookup ⟨sampleId 7, 0⟩).isSome = true ∧
    s.multisetHash = ofUtxoSet byteCount j.utxo := by
  have hstart := @UtxoNode.start_right zeroHash sampleParams sampleValidator ℤ _ byteCount poolTree
  obtain ⟨n, hstep, hpoint, hstored⟩ := exists_compute poolTree_ok hstart
    (s := ⟨.empty, 0, .default⟩) (by simp [UtxoNode.start]) (b := sampleId 201) (by decide)
    (by decide +kernel)
  obtain ⟨s, hs⟩ := Option.isSome_iff_exists.mp hstored
  rw [← hpoint] at hs
  obtain ⟨n', hstep', -, hstored'⟩ := exists_compute poolTree_ok (hstep.right poolTree_ok hstart) hs
    (b := sampleId 202) (by decide) (by rw [hpoint]; decide +kernel)
  obtain ⟨s', hs'⟩ := Option.isSome_iff_exists.mp hstored'
  have hreached := (ReflTransGen.single hstep).tail hstep'
  obtain ⟨chain, j, hchain, hj, hhash⟩ :=
    (multiset_hash_tracks_utxo_set poolTree_ok hreached).1 _ s' hs'
  have hone : ∀ e ∈ poolTreeChains, e.1 = sampleId 202 → e.2 = poolChain := by decide +kernel
  obtain rfl : chain = poolChain := hone _ (poolTree_chains hchain) rfl
  obtain ⟨k, hk, hspent⟩ := @exists_ok_of_any _ _
    (advanceAll zeroHash sampleParams sampleValidator ⟨∅, .default⟩ poolChain)
    (fun k => (k.utxo.lookup ⟨sampleId 200, 0⟩).isNone && (k.utxo.lookup ⟨sampleId 7, 0⟩).isSome)
    (by decide +kernel)
  obtain rfl := Except.ok.inj (hj.symm.trans hk)
  rw [Bool.and_eq_true, Option.isNone_iff_eq_none] at hspent
  exact ⟨n', s', j, hreached, hs', hj, hspent.1, hspent.2, hhash⟩

end Samples

end CryptixAtomic.Processor
