import CalcRs.Model.Types

/-! The distribute action: `actions/distribution.rs`. -/
namespace CalcRs

def MINIMUM_TOTAL_SHARES : ℕ := 10000

namespace Recipient

/-- The message that pays a recipient. -/
def distributeMessage (self : Recipient) (deps : Deps) (env : Env) (coins : List Coin) : Outcome CosmosMsg :=
  match self with
  | .bank address => .ok (.bankSend address coins)
  | .contract address msg => .ok (.wasmExecute address (.raw msg) coins)
  | .deposit memo => do
    let signer ← query (deps.addrCanonicalize env.contract)
    return .deposit ⟨memo,coins,signer⟩

end Recipient

namespace Distribution

/-- `Distribution::with_affiliates`. -/
def withAffiliates (self : Distribution) (affiliates : List Affiliate) : Outcome Distribution := do
  let totalFeeAppliedShares ← Uint128.sum (self.destinations.map Destination.shares)
  let fees ← affiliates.mapM fun affiliate => do
    let shares ← Uint128.mulCeil totalFeeAppliedShares (Decimal.bps affiliate.bps)
    return { shares := shares,recipient := .bank affiliate.address
             label := some affiliate.label,distributions := none : Destination }
  return { denoms := self.denoms,destinations := self.destinations ++ fees }

/-- The balances of the denoms, read one by one. -/
def readBalances (self : Distribution) (deps : Deps) (env : Env) : Outcome Coins :=
  self.denoms.foldlM (fun balances denom => do
    let coin ← query (deps.queryBalance env.contract denom)
    balances.add coin) Coins.empty

/-- What one destination gets of a coin: its ratio, or all that remains for the last one. -/
def shareAmount (isFinal : Bool) (shareRatio : Decimal) (coin : Coin) (remaining : Coins) : Outcome ℕ :=
  if isFinal then .ok (remaining.amountOf coin.denom) else Uint128.mulFloor coin.amount shareRatio

/-- The `flat_map` over the balances for one destination. A coin whose share is zero, or that
cannot be taken from what remains, is left out. -/
def denomShares (isFinal : Bool) (shareRatio : Decimal) : List Coin → Coins → Outcome (List Coin × Coins)
  | [],remaining => .ok ([],remaining)
  | coin :: rest,remaining => do
    let amount ← shareAmount isFinal shareRatio coin remaining
    if amount=0 then denomShares isFinal shareRatio rest remaining
    else
      match ← Fault.attempt (remaining.sub ⟨amount,coin.denom⟩) with
      | .error _ => denomShares isFinal shareRatio rest remaining
      | .ok remaining =>
        let (shares,remaining) ← denomShares isFinal shareRatio rest remaining
        return (⟨amount,coin.denom⟩ :: shares,remaining)

/-- The destination with its new payment added to its tallies. -/
def tally (destination : Destination) (denomShares : List Coin) : Outcome Destination := do
  let distributions ← Coins.tryFrom (destination.distributions.getD [])
  let distributions ← distributions.addAll denomShares
  return { destination with distributions := some distributions.toVec }

/-- The payment loop over the destinations that are left. -/
def payDestinations (deps : Deps) (env : Env) (balances : Coins) (totalShares : ℕ) :
    List Destination → Coins → Outcome (List CosmosMsg × List Destination)
  | [],_ => .ok ([],[])
  | destination :: rest,remaining => do
    let shareRatio ← Decimal.fromRatio destination.shares totalShares
    let (coins,remaining) ← denomShares rest.isEmpty shareRatio balances.toVec remaining
    if coins.isEmpty then payDestinations deps env balances totalShares rest remaining
    else
      let message ← destination.recipient.distributeMessage deps env coins
      let updated ← tally destination coins
      let (messages,destinations) ← payDestinations deps env balances totalShares rest remaining
      return (message :: messages,updated :: destinations)

/-- `Distribution::execute_unsafe`. -/
def executeUnsafe (self : Distribution) (deps : Deps) (env : Env) : Outcome (List CosmosMsg × Distribution) := do
  let balances ← self.readBalances deps env
  if balances.isEmpty then return ([],self)
  else
    let totalShares ← Uint128.sum (self.destinations.map Destination.shares)
    let (messages,destinations) ← payDestinations deps env balances totalShares self.destinations balances
    return (messages,{ denoms := self.denoms,destinations := destinations })

/-- The checks of `Distribution::init` on one destination. -/
def validateDestination (deps : Deps) (destination : Destination) : Outcome Unit :=
  if destination.shares=0 then genericErr "Destination shares cannot be zero"
  else match destination.recipient with
    | .bank address | .contract address _ =>
      if deps.addrValidate address then .ok () else genericErr s!"Invalid destination address: {address}"
    | .deposit _ => .ok ()

/-- `Distribution::init`. -/
def init (self : Distribution) (deps : Deps) (affiliates : List Affiliate) : Outcome Distribution := do
  if self.denoms.isEmpty then genericErr "Denoms cannot be empty"
  else if self.destinations.isEmpty then genericErr "Destinations cannot be empty"
  else if ¬self.denoms.Nodup then genericErr "Denoms cannot contain duplicates"
  else
    let totalShares ← self.destinations.foldlM (fun total destination => do
      validateDestination deps destination
      Uint128.add total destination.shares) 0
    if totalShares<MINIMUM_TOTAL_SHARES then
      genericErr s!"Total shares must be at least {MINIMUM_TOTAL_SHARES}"
    else self.withAffiliates affiliates

end Distribution
end CalcRs
