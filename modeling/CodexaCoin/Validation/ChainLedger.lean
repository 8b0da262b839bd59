import CodexaCoin.Lib.History
import CodexaCoin.Validation.Inflation

/-!
# The ledger of a chain

The transactions of a connected chain are a history of a ledger, whose coins are those of the tip.
-/

namespace CodexaCoin

open Check History

variable {net : Network} {C : Crypto} {links : List ChainLink} {tip : ChainLink}

/-! ## Outputs are spent once -/

section Spends

/-- The transactions of a chain with their heights, the newest first. `ConnectBlock` adds no coins of the genesis
block. -/
def chainTxs : List ChainLink → List (CTransaction × Nat)
  | link :: prev :: links => (link.block.vtx.map (·, (prev :: links).length)).reverse ++ chainTxs (prev :: links)
  | _ => []

def chainEntry (C : Crypto) (t : CTransaction × Nat) : Ledger.Entry COutPoint Coin := t.1.entry C t.2

theorem chained_cons {l : List (CTransaction × Nat)} {t : CTransaction × Nat} {undo : List Coin}
    (h : Chained (chainEntry C) l) (hvalid : Ledger.Valid (unspent (chainEntry C) l) (chainEntry C t) undo)
    (hnew : t.1.getHash C ∉ l.map (·.1.getHash C)) : Chained (chainEntry C) (t :: l) := by
  refine ⟨h, hvalid.spends_nodup, fun k hk => ?_, hvalid.creates_nodup, fun k hk hold => hnew ?_⟩
  · obtain ⟨c, -, hc⟩ := exists_of_mem_of_forall₂ hvalid.spends_lookup hk
    exact Finmap.mem_iff.2 ⟨c, hc⟩
  · obtain ⟨i, -, -, hkey⟩ := newItems_key hk
    obtain ⟨kv, hkv, hfst⟩ := List.mem_map.1 hold
    obtain ⟨t', ht', hcreated⟩ := mem_created.1 hkv
    obtain ⟨j, -, -, hkey'⟩ := newItems_key (List.mem_map_of_mem hcreated)
    have hid := congrArg COutPoint.hash (hkey.symm.trans (hfst.symm.trans hkey'))
    exact List.mem_map.2 ⟨t', ht', hid.symm⟩

/-- **The transactions of a connected chain are a history** of its coins, if they have different ids. -/
theorem connectedChain_chained (h : ConnectedChain net C links) (hids : ((chainTxs links).map (·.1.getHash C)).Nodup) :
    Chained (chainEntry C) (chainTxs links) ∧
      ∀ tip ∈ links.head?, tip.after.coins = unspent (chainEntry C) (chainTxs links) := by
  induction h with
  | genesis hnet hC h =>
    subst hnet hC
    refine ⟨trivial, ?_⟩
    rintro tip ⟨⟩
    exact connectBlock_genesis rfl h
  | @next tip links E block fProofOfStake r hlinks hnet hC hgenesis _ _ h ih =>
    subst hnet hC
    obtain ⟨nMax, s, hc⟩ := connectBlock_eq_ok hgenesis h
    have hheight : (linkIndexes (tip :: links)).length = (tip :: links).length := List.length_map _
    rw [chainTxs] at hids ⊢
    obtain ⟨hchained, hcoins⟩ := ih (hids.sublist ((List.sublist_append_right _ _).map _))
    -- within the block: the transactions that are done belong to the history
    obtain ⟨hlong, heq⟩ := hc.coins_induction (P := fun done m => done <+: block.vtx →
      Chained (chainEntry E.crypto) ((done.map (·, (tip :: links).length)).reverse ++ chainTxs (tip :: links)) ∧
      m = unspent (chainEntry E.crypto) ((done.map (·, (tip :: links).length)).reverse ++ chainTxs (tip :: links)))
      (fun _ => ⟨hchained, hcoins tip rfl⟩) (fun done tx m undo _ hvalid hdone hpart => by
        obtain ⟨hlong, rfl⟩ := hdone ((List.prefix_append done [tx]).trans hpart)
        have hnew := hids.sublist (((hpart.sublist.map (·, (tip :: links).length)).reverse.append_right _).map _)
        have hsplit : ((done ++ [tx]).map (·, (tip :: links).length)).reverse =
            (tx, (tip :: links).length) :: (done.map (·, (tip :: links).length)).reverse := by simp
        rw [hsplit] at hnew ⊢
        rw [hheight] at hvalid ⊢
        exact ⟨chained_cons hlong hvalid (List.nodup_cons.1 hnew).1, rfl⟩) (List.prefix_refl _)
    refine ⟨hlong, ?_⟩
    rintro tip' ⟨⟩
    exact heq

/-- **No output of a chain is spent twice**, none before it is created, and the coins of the tip are the outputs that were
created and not spent, if the transactions of the chain have different ids. -/
theorem chain_spends_once (h : ConnectedChain net C (tip :: links))
    (hids : ((chainTxs (tip :: links)).map (·.1.getHash C)).Nodup) :
    (∀ t t' o, t ∈ chainTxs (tip :: links) → t' ∈ chainTxs (tip :: links) → o ∈ (chainEntry C t).spends →
      o ∈ (chainEntry C t').spends → t = t') ∧
    (∀ t earlier, t :: earlier <:+ chainTxs (tip :: links) →
      (chainEntry C t).spends.Nodup ∧ ∀ o ∈ (chainEntry C t).spends, ∃ c, (o, c) ∈ created (chainEntry C) earlier) ∧
    ∀ o c, tip.after.coins.lookup o = some c ↔ (o, c) ∈ created (chainEntry C) (chainTxs (tip :: links)) ∧
      ∀ t ∈ chainTxs (tip :: links), o ∉ (chainEntry C t).spends := by
  obtain ⟨hchained, hcoins⟩ := connectedChain_chained h hids
  refine ⟨fun t t' o => hchained.spent_once, fun t earlier hs => ?_, fun o c => ?_⟩
  · obtain ⟨-, hnodup, hspends, -⟩ := hchained.suffix hs
    refine ⟨hnodup, fun o ho => ?_⟩
    obtain ⟨c, hc⟩ := Finmap.mem_iff.1 (hspends o ho)
    exact ⟨c, lookup_unspent hc⟩
  · rw [hcoins tip rfl]
    refine ⟨fun hc => ⟨lookup_unspent hc, fun t ht ho => ?_⟩, fun hc => hchained.lookup_of_not_spent hc.1 hc.2⟩
    exact hchained.not_unspent ht ho (Finmap.mem_iff.2 ⟨c, hc⟩)

theorem stakeChain_spends_once : ∃ tip links, ConnectedChain .regtest .sample (tip :: links) ∧
    ∀ t t' o, t ∈ chainTxs (tip :: links) → t' ∈ chainTxs (tip :: links) → o ∈ (chainEntry .sample t).spends →
      o ∈ (chainEntry .sample t').spends → t = t' := by
  have hrun : stakeChain.any (fun links => decide ((chainTxs links).map (·.1.getHash .sample)).Nodup) = true := by
    decide +kernel
  obtain ⟨links, hlinks, hids⟩ := (Option.any_eq_true _ _).1 hrun
  have hchain := stakeChain_connected hlinks
  obtain ⟨tip, rest, rfl⟩ := hchain.exists_tip
  exact ⟨tip, rest, hchain, (chain_spends_once hchain (of_decide_eq_true hids)).1⟩

end Spends

/-! ## The supply -/

section Supply

/-- The most that the blocks of a chain after the genesis block can have added to the supply. -/
def supplyLimit (net : Network) (C : Crypto) : List ChainLink → Int
  | link :: prev :: links => supplyLimit net C (prev :: links) +
      (rewardCap net (linkIndexes (prev :: links)) link.before.coins link.block +
        blockFees C (prev :: links).length link.before.coins link.block.vtx +
        uncheckedGain C (prev :: links).length link.before.coins link.block - blockBurnt link.block.vtx)
  | _ => 0

/-- **Where the supply of a chain comes from**: the reward caps of its blocks, their fees once more, and what coinstakes
of proof-of-work blocks pay themselves, less what is burnt. -/
theorem chain_supply_le (h : ConnectedChain net C (tip :: links)) :
    utxoTotal tip.after.coins ≤ supplyLimit net C (tip :: links) := by
  generalize hall : tip :: links = all at h
  induction h generalizing tip links with
  | genesis hnet hC h =>
    cases hall
    subst hnet hC
    rw [connectBlock_genesis rfl h]
    exact le_of_eq (Ledger.total_empty _)
  | @next prev links E block fProofOfStake r hlinks hnet hC hgenesis _ hv3 h ih =>
    cases hall
    subst hnet hC
    obtain ⟨nMax, s, hc⟩ := connectBlock_eq_ok hgenesis h
    have hbefore := ih rfl
    have hadded := connected_supply_le hc hv3
    rw [show (linkIndexes (prev :: links)).length = (prev :: links).length from List.length_map _] at hadded
    simp only [supplyLimit]
    omega

theorem stakeChain_supply : ∃ tip links, ConnectedChain .regtest .sample (tip :: links) ∧
    0 < utxoTotal tip.after.coins ∧ utxoTotal tip.after.coins ≤ supplyLimit .regtest .sample (tip :: links) := by
  have hrun : stakeChain.any (fun links => decide (∀ tip ∈ links.head?, 0 < utxoTotal tip.after.coins)) = true := by
    decide +kernel
  obtain ⟨links, hlinks, hpos⟩ := (Option.any_eq_true _ _).1 hrun
  have hchain := stakeChain_connected hlinks
  obtain ⟨tip, rest, rfl⟩ := hchain.exists_tip
  exact ⟨tip, rest, hchain, of_decide_eq_true hpos tip rfl, chain_supply_le hchain⟩

end Supply

end CodexaCoin
