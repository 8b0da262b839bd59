import CodexaCoin.Validation.Witness
import CodexaCoin.StakeTarget
import CodexaCoin.CoinAgeReward
import CodexaCoin.Node.Reorg
import CodexaCoin.Node.StakeFlag
import CodexaCoin.Validation.Agreement
import CodexaCoin.CoinsRefinement
import CodexaCoin.Gateway.ReferralPayout
import CodexaCoin.Gateway.ReferralCredit
import CodexaCoin.Gateway.Solvency
import CodexaCoin.Gateway.Funding
import CodexaCoin.Indexer.Deserializer
import CodexaCoin.Wallet.Message
import CodexaCoin.Gateway.AddressHistory
import CodexaCoin.Checkout.Widget
import CodexaCoin.Validation.Overflow
import CodexaCoin.CoinStorage
import CodexaCoin.Validation.TxTimes
import CodexaCoin.Node.StakeModifier
import CodexaCoin.Wallet.Confirm
import CodexaCoin.Wallet.Cosign
import CodexaCoin.Faucet.Claim
import CodexaCoin.Gateway.Receipts
import CodexaCoin.ChainWork
import CodexaCoin.Node.SkipList
import CodexaCoin.Wallet.Der
import CodexaCoin.Wallet.TokenAmount
import CodexaCoin.Explorer.RichList
import CodexaCoin.Validation.ChainLedger
import CodexaCoin.Indexer.Merkle
