import CodexaCoin.Script.SigHash
import CodexaCoin.Validation.ConnectBlock

/-!
# Outputs to witness key hashes on the main network

Wallets build the script `OP_0 <20 bytes>` for bech32 addresses. The main network never activates the segwit
deployment, so blocks are checked without `SCRIPT_VERIFY_WITNESS` and may carry no witness data at all.
-/

namespace CodexaCoin

open Check Consensus CoinMap IndexChain

/-! ## Inputs with the coins they spend -/

/-- An input of a transaction with the coin that it spends. -/
structure Spend where
  tx : CTransaction
  nIn : Nat
  txin : CTxIn
  coin : Coin

/-- The inputs of a transaction that find their coin in `m`. -/
def txSpends (m : CoinMap) (tx : CTransaction) : List Spend :=
  if tx.isCoinBase then []
  else tx.vin.zipIdx.filterMap fun (txin, nIn) => (m.lookup txin.prevout).map fun coin => ⟨tx, nIn, txin, coin⟩

/-- The inputs of a block, each with its coin in the state that the transactions before it leave. -/
def blockSpends (C : Crypto) (nHeight : Nat) : CoinMap → List CTransaction → List Spend
  | _, [] => []
  | m, tx :: txs => txSpends m tx ++ blockSpends C nHeight ((tx.entry C nHeight).apply m) txs

def Spend.isKeyHash (s : Spend) : Bool :=
  decide (s.coin.out.scriptPubKey.length = 22 ∧ s.coin.out.scriptPubKey.take 2 = [0x00, 0x14])

/-- The input carries the key of the output and a valid signature. -/
def Spend.CorrectlyWitnessed (C : Crypto) (taproot : CTransaction → Nat → List Valtype → List UInt8 → Bool) (s : Spend) :
    Prop :=
  ∃ sig pubkey, KeyHashWitness C (transactionSignatureChecker C taproot s.tx.reread s.nIn s.coin.out.nValue)
    (s.coin.out.scriptPubKey.drop 2) s.txin.scriptWitness sig pubkey

theorem mem_blockSpends {C : Crypto} {nHeight : Nat} {m : CoinMap} {txs : List CTransaction} {s : Spend}
    (h : s ∈ blockSpends C nHeight m txs) : s.tx ∈ txs ∧ s.txin ∈ s.tx.vin := by
  induction txs generalizing m with
  | nil => cases h
  | cons tx txs ih =>
    rcases List.mem_append.1 h with h | h
    · unfold txSpends at h
      split at h
      · cases h
      · obtain ⟨⟨txin, nIn⟩, hmem, hs⟩ := List.mem_filterMap.1 h
        obtain ⟨coin, -, rfl⟩ := Option.map_eq_some_iff.1 hs
        exact ⟨List.mem_cons_self .., (List.mem_zipIdx' hmem).2 ▸ List.getElem_mem _⟩
    · obtain ⟨htx, hin⟩ := ih h
      exact ⟨List.mem_cons_of_mem _ htx, hin⟩

/-! ## Blocks without their witness data -/

def CTransaction.stripWitness (tx : CTransaction) : CTransaction :=
  { tx with vin := tx.vin.map fun txin => { txin with scriptWitness := [] } }

def CBlock.stripWitness (block : CBlock) : CBlock :=
  { block with vtx := block.vtx.map CTransaction.stripWitness }

def CBlock.hasWitness (block : CBlock) : Bool := block.vtx.any (·.hasWitness)

theorem CTransaction.stripWitness_eq {tx : CTransaction} (h : tx.hasWitness = false) : tx.stripWitness = tx := by
  have hvin : tx.vin.map (fun txin => { txin with scriptWitness := [] }) = tx.vin := by
    refine (List.map_congr_left fun txin hmem => ?_).trans (List.map_id _)
    have hempty : txin.scriptWitness = [] := by simpa using List.any_eq_false.1 h txin hmem
    cases txin
    simp_all
  rw [stripWitness, hvin]

theorem CBlock.stripWitness_eq {block : CBlock} (h : block.hasWitness = false) : block.stripWitness = block := by
  have hvtx : block.vtx.map CTransaction.stripWitness = block.vtx := by
    refine (List.map_congr_left fun tx hmem => ?_).trans (List.map_id _)
    exact CTransaction.stripWitness_eq (by simpa using List.any_eq_false.1 h tx hmem)
  rw [stripWitness, hvtx]

theorem isFinalTx_stripWitness (tx : CTransaction) (nBlockHeight nBlockTime : Int) :
    isFinalTx tx.stripWitness nBlockHeight nBlockTime = isFinalTx tx nBlockHeight nBlockTime := by
  have hvin : (tx.stripWitness.vin.all fun txin => txin.nSequence == 0xffffffff) =
      tx.vin.all fun txin => txin.nSequence == 0xffffffff := by
    simp [CTransaction.stripWitness, Function.comp_def]
  rw [isFinalTx, isFinalTx, hvin]
  rfl

/-! ## The main network -/

section Main

variable {E : Env} {block : CBlock} {pindex : CBlockIndex} {pprev : IndexChain} {view : CCoinsView}
  {taproot : CTransaction → Nat → List Valtype → List UInt8 → Bool}

theorem deploymentActiveAfter_segwit_main (pprev : IndexChain) : deploymentActiveAfter .main pprev .segwit = false := by
  have hstate : getStateFor .main .segwit pprev = .failed := rfl
  rw [deploymentActiveAfter, hstate]
  rfl

/-- **`ContextualCheckBlock` on the main network** rejects every block with witness data. -/
theorem contextualCheckBlock_main (hnet : E.net = .main) :
    contextualCheckBlock E block pprev = (do
      contextualCheckTxs E block pprev
      require (!block.hasWitness) (.invalid .blockMutated "unexpected-witness")
      require (decide ((block.serialize false).length * (witnessScaleFactor - 1) + (block.serialize true).length
          ≤ maxBlockWeight))
        (.invalid .blockConsensus "bad-blk-weight")) := by
  have hmall : checkWitnessMalleation E.crypto block (deploymentActiveAfter E.net pprev .segwit) =
      require (!block.hasWitness) (.invalid .blockMutated "unexpected-witness") := by
    rw [hnet, deploymentActiveAfter_segwit_main, checkWitnessMalleation, CBlock.hasWitness]
    simp [List.not_any_eq_all_not]
  rw [contextualCheckBlock, hmall]

theorem contextualCheckTxs_stripWitness :
    contextualCheckTxs E block.stripWitness pprev = contextualCheckTxs E block pprev := by
  have hsig : ((block.stripWitness.vtx.head?.bind fun tx => tx.vin.head?).map (·.scriptSig)) =
      ((block.vtx.head?.bind fun tx => tx.vin.head?).map (·.scriptSig)) := by
    rcases hvtx : block.vtx with _ | ⟨tx, txs⟩
    · simp [CBlock.stripWitness, hvtx]
    · rcases hvin : tx.vin with _ | ⟨txin, vin⟩ <;>
        simp [CBlock.stripWitness, CTransaction.stripWitness, hvtx, hvin]
  have hfinal : ∀ t : Int, (block.stripWitness.vtx.all fun tx => isFinalTx tx pprev.length t) =
      block.vtx.all fun tx => isFinalTx tx pprev.length t := by
    intro t
    simp [CBlock.stripWitness, Function.comp_def, isFinalTx_stripWitness]
  simp only [contextualCheckTxs, hsig, hfinal]
  rfl

/-- A block that the node accepts and connects. -/
structure Accepted (E : Env) (block : CBlock) (pindex : CBlockIndex) (pprev : IndexChain) (view : CCoinsView) : Prop where
  contextual : contextualCheckBlock E block pprev = .ok ()
  connects : ∃ r, connectBlock E block pindex pprev view false = .ok r

theorem accepted_hasWitness (hnet : E.net = .main)
    (h : Accepted E block pindex pprev view) : block.hasWitness = false := by
  have hok := h.contextual
  rw [contextualCheckBlock_main hnet] at hok
  obtain ⟨⟨⟩, -, hok⟩ := bind_eq_ok.1 hok
  obtain ⟨hnone, -⟩ := require_bind_eq_ok.1 hok
  simpa using hnone

theorem contextualCheckBlock_unexpected_witness (hnet : E.net = .main)
    (h : Accepted E block.stripWitness pindex pprev view) (hwit : block.hasWitness = true) :
    contextualCheckBlock E block pprev = .error (.invalid .blockMutated "unexpected-witness") := by
  have hok := h.contextual
  rw [contextualCheckBlock_main hnet] at hok
  obtain ⟨⟨⟩, htxs, -⟩ := bind_eq_ok.1 hok
  rw [contextualCheckTxs_stripWitness] at htxs
  rw [contextualCheckBlock_main hnet, htxs, hwit]
  rfl

/-- The coinbase commits to the witness data of the block, in the sense of an active segwit deployment. -/
def WitnessCommitted (C : Crypto) (block : CBlock) : Prop :=
  (getWitnessCommitmentIndex block).isSome = true ∧ checkWitnessMalleation C block true = .ok ()

/-- What the holder of the key of a witness key hash may expect of a block: if it is accepted, every spend of such an
output has the key and a valid signature; and it is not rejected for the witness data of such spends, if that is
committed to and nothing else is wrong with the block. -/
structure KeyHashGuarantee (E : Env) (taproot : CTransaction → Nat → List Valtype → List UInt8 → Bool) (block : CBlock)
    (pindex : CBlockIndex) (pprev : IndexChain) (view : CCoinsView) : Prop where
  onlyKeyHolder : Accepted E block pindex pprev view →
    ∀ s ∈ blockSpends E.crypto pprev.length view.coins block.vtx, s.isKeyHash = true →
      s.CorrectlyWitnessed E.crypto taproot
  spendable : Accepted E block.stripWitness pindex pprev view →
    (∃ s ∈ blockSpends E.crypto pprev.length view.coins block.vtx,
      s.isKeyHash = true ∧ s.CorrectlyWitnessed E.crypto taproot) →
    WitnessCommitted E.crypto block →
    contextualCheckBlock E block pprev ≠ .error (.invalid .blockMutated "unexpected-witness")

theorem not_correctlyWitnessed {s : Spend} {C : Crypto} {nHeight : Nat} {m : CoinMap} (hnone : block.hasWitness = false)
    (hs : s ∈ blockSpends C nHeight m block.vtx) : ¬ s.CorrectlyWitnessed C taproot := by
  rintro ⟨sig, pubkey, hwit⟩
  obtain ⟨htx, hin⟩ := mem_blockSpends hs
  have htxnone : s.tx.hasWitness = false := by simpa using List.any_eq_false.1 hnone s.tx htx
  have hempty : s.txin.scriptWitness = [] := by simpa using List.any_eq_false.1 htxnone s.txin hin
  exact absurd (hempty.symm.trans hwit.stack) (by simp)

theorem keyHashGuarantee_iff (hnet : E.net = .main) (h : Accepted E block.stripWitness pindex pprev view) :
    KeyHashGuarantee E taproot block pindex pprev view ↔
      if block.hasWitness then
        ¬ ((∃ s ∈ blockSpends E.crypto pprev.length view.coins block.vtx,
            s.isKeyHash = true ∧ s.CorrectlyWitnessed E.crypto taproot) ∧ WitnessCommitted E.crypto block)
      else ∀ s ∈ blockSpends E.crypto pprev.length view.coins block.vtx, s.isKeyHash = false := by
  cases hwit : block.hasWitness with
  | true =>
    rw [if_pos rfl]
    constructor
    · rintro hg ⟨hspend, hcommit⟩
      exact hg.spendable h hspend hcommit (contextualCheckBlock_unexpected_witness hnet h hwit)
    · intro hnot
      refine ⟨fun hacc => ?_, fun _ hspend hcommit => absurd ⟨hspend, hcommit⟩ hnot⟩
      exact absurd (hwit.symm.trans (accepted_hasWitness hnet hacc)) (by simp)
  | false =>
    rw [if_neg (by simp)]
    rw [CBlock.stripWitness_eq hwit] at h
    constructor
    · intro hg s hs
      cases hkey : s.isKeyHash with
      | false => rfl
      | true => exact absurd (hg.onlyKeyHolder h s hs hkey) (not_correctlyWitnessed hwit hs)
    · intro hnone
      refine ⟨fun _ s hs hkey => absurd ((hnone s hs).symm.trans hkey) (by simp), ?_⟩
      rintro - ⟨s, hs, hkey, -⟩
      exact absurd ((hnone s hs).symm.trans hkey) (by simp)

theorem keyHashGuarantee_of_rejected (hnet : E.net = .main) (h : ¬ Accepted E block.stripWitness pindex pprev view) :
    KeyHashGuarantee E taproot block pindex pprev view := by
  refine ⟨fun hacc => ?_, fun hstrip => absurd hstrip h⟩
  rw [CBlock.stripWitness_eq (accepted_hasWitness hnet hacc)] at h
  exact absurd hacc h

end Main

/-! ## Spending without a key -/

section AnyoneCanSpend

/-- The main network with the script interpreter; its checkpoints are off, since the block is the first one. -/
def scriptEnv : Env :=
  { Env.sample .main 1785326464 with verifyScript := transactionVerifyScript .sample fun _ _ _ _ => false }

def spendBlock : CBlock := paymentBlock 2800000000000000 paymentTx

def spendIndex : CBlockIndex := paymentIndex 2800000000000000 paymentTx

/-- The coin that the block spends. -/
def scriptView (scriptPubKey : CScript) : CCoinsView := paymentView scriptPubKey 0

theorem spendBlock_accepted :
    Accepted scriptEnv spendBlock spendIndex paymentChain (scriptView [0x51]) ∧
      Accepted scriptEnv spendBlock spendIndex paymentChain (scriptView (witnessKeyHash (List.replicate 20 1))) := by
  have hctx : holdsOk (fun _ => true) (contextualCheckBlock scriptEnv spendBlock paymentChain) = true := by decide +kernel
  have hplain : holdsOk (fun _ => true)
      (connectBlock scriptEnv spendBlock spendIndex paymentChain (scriptView [0x51]) false) = true := by decide +kernel
  have hkey : holdsOk (fun _ => true) (connectBlock scriptEnv spendBlock spendIndex paymentChain
      (scriptView (witnessKeyHash (List.replicate 20 1))) false) = true := by decide +kernel
  obtain ⟨⟨⟩, hctx, -⟩ := holdsOk_iff.1 hctx
  obtain ⟨r1, h1, -⟩ := holdsOk_iff.1 hplain
  obtain ⟨r2, h2, -⟩ := holdsOk_iff.1 hkey
  exact ⟨⟨hctx, r1, h1⟩, ⟨hctx, r2, h2⟩⟩

theorem spendBlock_keyHashGuarantee :
    KeyHashGuarantee scriptEnv (fun _ _ _ _ => false) spendBlock spendIndex paymentChain (scriptView [0x51]) := by
  have hstrip : spendBlock.stripWitness = spendBlock := CBlock.stripWitness_eq (by decide)
  refine (keyHashGuarantee_iff rfl (hstrip.symm ▸ spendBlock_accepted.1)).2 ?_
  rw [show spendBlock.hasWitness = false by decide, if_neg (by simp)]
  decide +kernel

/-- **An output to a witness key hash is spent with neither key nor signature**, by a block that is accepted. -/
theorem anyoneCanSpend_accepted :
    Accepted scriptEnv spendBlock spendIndex paymentChain (scriptView (witnessKeyHash (List.replicate 20 1))) ∧
      ∃ s ∈ blockSpends .sample 1 (scriptView (witnessKeyHash (List.replicate 20 1))).coins spendBlock.vtx,
        s.isKeyHash = true ∧ s.txin.scriptSig = [] ∧ s.txin.scriptWitness = [] := by
  have hspend : ((blockSpends .sample 1 (scriptView (witnessKeyHash (List.replicate 20 1))).coins spendBlock.vtx).any
      fun s => s.isKeyHash && s.txin.scriptSig == [] && s.txin.scriptWitness == []) = true := by decide +kernel
  obtain ⟨s, hs, hall⟩ := List.any_eq_true.1 hspend
  simp only [Bool.and_eq_true, beq_iff_eq] at hall
  exact ⟨spendBlock_accepted.2, s, hs, hall.1.1, hall.1.2, hall.2⟩

end AnyoneCanSpend

end CodexaCoin
