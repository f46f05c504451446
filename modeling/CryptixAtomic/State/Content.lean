import CryptixAtomic.Foundation.SecondaryIndex
import CryptixAtomic.State.Writes

/-!
# The logical content of a state

What a state means is what it answers to reads, whether the answers come from the
overlay or from the store. `Content` is that meaning: four partial maps and the
vault index, which is a secondary index over the assets. Every mutator is one
`Write`; `content_put` says that a state follows its content write by write.
-/
namespace CryptixAtomic

open Foundation AtomicAssetState Function

/-- A write of one value, as mutators and deltas perform it. -/
inductive Write
  | nonce (key : AtomicNonceKey) (value : Option ℕ)
  | asset (assetId : Bytes32) (value : Option AtomicAssetState)
  | balance (key : AtomicBalanceKey) (value : Option ℕ)
  | anchor (ownerId : Bytes32) (value : Option ℕ)

/-- Assets by id, indexed by the outpoint of their vault. -/
abbrev Ledger := Indexed Bytes32 AtomicAssetState TransactionOutpoint

@[ext] structure Content where
  nonce : AtomicNonceKey → Option ℕ
  ledger : Ledger
  balance : AtomicBalanceKey → Option ℕ
  anchor : Bytes32 → Option ℕ

namespace Content

def put (c : Content) : Write → Content
  | .nonce key value => { c with nonce := Function.update c.nonce key value }
  | .asset assetId value =>
    { c with ledger := c.ledger.write vaultOutpoint assetId value }
  | .balance key value => { c with balance := Function.update c.balance key value }
  | .anchor ownerId value => { c with anchor := Function.update c.anchor ownerId value }

/-- The vault index names exactly the pools of the listed assets. -/
def Coherent (c : Content) : Prop := c.ledger.Coherent vaultOutpoint

/-- Pools belong to liquidity assets only. -/
def Consistent (c : Content) : Prop :=
  ∀ assetId asset, c.ledger.table assetId = some asset → asset.ClassConsistent

end Content

namespace Write

/-- A written asset has pool state exactly when its class asks for it. -/
def Consistent : Write → Prop
  | asset _ (some a) => a.ClassConsistent
  | _ => True

/-- The vault of a written asset belongs to no other asset. -/
def Exclusive (c : Content) : Write → Prop
  | asset assetId value => c.ledger.Exclusive vaultOutpoint assetId value
  | _ => True

end Write

variable {w : Write}

theorem Content.Consistent.put {c : Content} (h : c.Consistent) (hw : w.Consistent) :
    (c.put w).Consistent := by
  cases w with
  | asset =>
    intro assetId asset hlook
    simp only [Content.put, Indexed.write, update_apply] at hlook
    split_ifs at hlook with hid
    · subst hlook
      exact hw
    · exact h assetId asset hlook
  | nonce | balance | anchor => exact h

theorem Content.Coherent.put {c : Content} (h : c.Coherent) (hw : w.Exclusive c) :
    (c.put w).Coherent := by
  cases w with
  | asset => exact Indexed.Coherent.write h hw
  | nonce | balance | anchor => exact h

namespace AtomicConsensusState

/-- What the state answers to reads. -/
def content (s : AtomicConsensusState) : Content where
  nonce := s.nonceOption
  ledger := { table := s.assetOption, index := s.vaultOption }
  balance := s.balanceOption
  anchor := s.anchorCountOption

section Put

variable (blake2b : Blake2b) (s : AtomicConsensusState)

def put : Write → AtomicConsensusState
  | .nonce key value => s.setNonceValueWithoutDelta blake2b key value
  | .asset assetId value => s.withAsset blake2b assetId value
  | .balance key value => s.setBalanceValueWithoutDelta blake2b key value
  | .anchor ownerId value => s.setAnchorCountValueWithoutDelta blake2b ownerId value

/-- Whether a write succeeds: only asset writes can fail. -/
def Accepts : Write → Prop
  | .asset assetId value => s.VaultFree assetId value
  | _ => True

@[simp] theorem currentStore_put (w : Write) : (s.put blake2b w).currentStore = s.currentStore := by
  cases w <;> rfl

@[simp] theorem deltaTracking_put (w : Write) :
    (s.put blake2b w).deltaTracking = s.deltaTracking := by
  cases w <;> rfl

@[simp] theorem dirtyDelta_put (w : Write) : (s.put blake2b w).dirtyDelta = s.dirtyDelta := by
  cases w <;> rfl

/-- Over a store or not, an overlay is backed exactly when the base is there. -/
theorem isDiskBacked_eq {V : Type} (f : CurrentStore → V) :
    s.isDiskBacked = (s.currentStore.map f).isSome := by
  simp [isDiskBacked]

theorem read_dropPool {old : Option AtomicAssetState}
    (hold : ∀ asset, old = some asset → asset.ClassConsistent) (o : TransactionOutpoint) :
    (s.liquidityVaultOutpoints.dropPool s.isDiskBacked old).read (s.currentStore.map (·.vaults)) o =
      if old.bind (·.vaultOutpoint) = some o then none else s.vaultOption o := by
  have hslot : old.bind (·.poolOutpoint) = old.bind (·.vaultOutpoint) := by
    cases old with
    | none => rfl
    | some asset => exact (hold asset rfl).poolOutpoint_eq
  unfold VaultIndex.dropPool
  rw [hslot]
  cases hprev : old.bind (·.vaultOutpoint) with
  | none => simp [vaultOption]
  | some =>
    rw [s.isDiskBacked_eq (·.vaults)]
    simp only [Overlay.read_write, vaultOption, Option.some.injEq, eq_comm]

theorem read_listPool (v : VaultIndex) (assetId : Bytes32) (new : Option AtomicAssetState)
    (o : TransactionOutpoint) :
    (v.listPool s.isDiskBacked assetId new).read (s.currentStore.map (·.vaults)) o =
      if new.bind (·.vaultOutpoint) = some o then some assetId
      else v.read (s.currentStore.map (·.vaults)) o := by
  unfold VaultIndex.listPool
  cases hnew : new.bind (·.vaultOutpoint) with
  | none => simp
  | some =>
    rw [s.isDiskBacked_eq (·.vaults)]
    simp only [Overlay.read_write, Option.some.injEq, eq_comm]

section Reads

variable (w : Write)

theorem nonceOption_put : (s.put blake2b w).nonceOption = (s.content.put w).nonce := by
  cases w with
  | nonce key value =>
    funext j
    have hread := s.nextNonces.read_write (s.currentStore.map (·.nonces)) key j value
    rw [← s.isDiskBacked_eq] at hread
    simpa [content, nonceOption, put, setNonceValueWithoutDelta, Content.put,
      update_apply] using hread
  | asset | balance | anchor => rfl

theorem assetOption_put : (s.put blake2b w).assetOption = (s.content.put w).ledger.table := by
  cases w with
  | asset assetId value =>
    funext id
    have hread := s.assets.read_write (s.currentStore.map (·.assets)) assetId id value
    rw [← s.isDiskBacked_eq] at hread
    simpa [content, assetOption, put, withAsset, Content.put, Indexed.write,
      update_apply] using hread
  | nonce | balance | anchor => rfl

theorem balanceOption_put : (s.put blake2b w).balanceOption = (s.content.put w).balance := by
  cases w with
  | balance key value =>
    funext j
    have hread := s.balances.read_write (s.currentStore.map (·.balances)) key j value
    rw [← s.isDiskBacked_eq] at hread
    simpa [content, balanceOption, put, setBalanceValueWithoutDelta, Content.put,
      update_apply] using hread
  | nonce | asset | anchor => rfl

theorem anchorCountOption_put : (s.put blake2b w).anchorCountOption = (s.content.put w).anchor := by
  cases w with
  | anchor ownerId value =>
    funext j
    have hread := s.anchorCounts.read_write (s.currentStore.map (·.anchorCounts)) ownerId j value
    rw [← s.isDiskBacked_eq] at hread
    simpa [content, anchorCountOption, put, setAnchorCountValueWithoutDelta, Content.put,
      update_apply] using hread
  | nonce | asset | balance => rfl

theorem vaultOption_put (hcons : s.content.Consistent) :
    (s.put blake2b w).vaultOption = (s.content.put w).ledger.index := by
  cases w with
  | asset assetId value =>
    have hold : ∀ asset, s.assetOption assetId = some asset → asset.ClassConsistent :=
      fun asset h => hcons assetId asset h
    funext o
    change ((s.liquidityVaultOutpoints.dropPool s.isDiskBacked (s.assetOption assetId)).listPool
      s.isDiskBacked assetId value).read (s.currentStore.map (·.vaults)) o = _
    rw [read_listPool, read_dropPool s hold]
    rfl
  | nonce | balance | anchor => rfl

end Reads

theorem content_put (hcons : s.content.Consistent) (w : Write) :
    (s.put blake2b w).content = s.content.put w :=
  Content.ext (s.nonceOption_put blake2b w)
    (Indexed.ext (s.assetOption_put blake2b w) (s.vaultOption_put blake2b w hcons))
    (s.balanceOption_put blake2b w) (s.anchorCountOption_put blake2b w)

end Put

section Acceptance

variable {s : AtomicConsensusState}

theorem accepts_of_exclusive (hcoh : s.content.Coherent)
    (hcons : s.content.Consistent) (hw : w.Consistent)
    (hexcl : w.Exclusive s.content) : s.Accepts w := by
  cases w with
  | asset assetId =>
    intro asset hvalue hclass
    subst hvalue
    obtain ⟨pool, hpool⟩ := Option.isSome_iff_exists.mp (hw.mp hclass)
    have hvault : asset.vaultOutpoint = some pool.vaultOutpoint := by
      simp [vaultOutpoint, poolOutpoint, hclass, hpool]
    refine ⟨pool, hpool, fun other hlive => ?_⟩
    by_contra hother
    -- an overlay entry of another asset is visible to reads, so that asset has the vault
    have hread := Overlay.read_of_live hlive (s.currentStore.map (·.vaults))
    have hold : ∀ a, s.assetOption assetId = some a → a.ClassConsistent := hcons assetId
    rw [read_dropPool s hold] at hread
    split_ifs at hread
    have hslot := (hcoh pool.vaultOutpoint other).mp hread
    exact hexcl pool.vaultOutpoint hvault other hother hslot
  | nonce | balance | anchor => trivial

/-- In memory the overlay is the whole index, so acceptance means exclusiveness. -/
theorem exclusive_of_accepts (hmem : s.currentStore = none)
    (hcoh : s.content.Coherent) (hcons : s.content.Consistent)
    (hacc : s.Accepts w) : w.Exclusive s.content := by
  cases w with
  | asset assetId =>
    intro o ho other hother hslot
    obtain ⟨asset, rfl, hvault⟩ := Option.bind_eq_some_iff.mp ho
    have hclass : asset.assetClass = .liquidity := by
      by_contra hne
      simp [vaultOutpoint, hne] at hvault
    obtain ⟨pool, hpool, hfree⟩ := hacc asset rfl hclass
    have hat : pool.vaultOutpoint = o := by
      simpa [vaultOutpoint, poolOutpoint, hclass, hpool] using hvault
    have hindex : s.vaultOption o = some other := (hcoh o other).mpr hslot
    have hkept : (s.assetOption assetId).bind (·.vaultOutpoint) ≠ some o :=
      fun hs => hother (hcoh.unique hslot hs)
    have hold : ∀ a, s.assetOption assetId = some a → a.ClassConsistent := hcons assetId
    have hread := read_dropPool s hold o
    rw [if_neg hkept, hindex, hmem, Option.map_none, Overlay.read_none_base] at hread
    exact hother (hfree other (by rw [hat]; exact hread))
  | nonce | balance | anchor => trivial

end Acceptance
end AtomicConsensusState
end CryptixAtomic
