import CalcRs.Model.Types

/-! Prices from the order book of a FIN pair: `rujira.rs`. -/
namespace CalcRs

def MIN_ORDERS : ℕ := 4
def MIN_VALUE : ℕ := 10^4
def LIMIT : ℕ := 4
def MAX_ITERATIONS : ℕ := 2

/-- The accumulators of the paged loop of `get_side_price`; the orders are counted in a `u8`. -/
structure BookScan where
  orders : ℕ
  quoteValue : ℕ
  baseDepth : ℕ
  deriving DecidableEq

/-- One order of the book added to the accumulators. -/
def BookScan.addOrder (s : BookScan) (side : Side) (order : BookItemResponse) : Outcome BookScan := do
  if order.price.atomics=0 then genericErr "Order book contains a zero price order"
  else match side with
    | .base =>
      let value ← Uint128.mulFloor order.total order.price
      let quoteValue ← Uint128.checkedAdd s.quoteValue value
      let baseDepth ← Uint128.checkedAdd s.baseDepth order.total
      let orders ← U8.add s.orders 1
      return ⟨orders,quoteValue,baseDepth⟩
    | .quote =>
      let quoteValue ← Uint128.checkedAdd s.quoteValue order.total
      let depth ← Uint128.divCeil order.total order.price
      let baseDepth ← Uint128.checkedAdd s.baseDepth depth
      let orders ← U8.add s.orders 1
      return ⟨orders,quoteValue,baseDepth⟩

/-- The loop over one page, left as soon as the scan is deep enough. -/
def BookScan.addPage (side : Side) : List BookItemResponse → BookScan → Outcome BookScan
  | [],s => .ok s
  | order :: rest,s => do
    let s ← s.addOrder side order
    if MIN_ORDERS ≤ s.orders ∧ MIN_VALUE ≤ s.quoteValue then return s
    else BookScan.addPage side rest s

/-- The loop over pages; the first argument counts the iterations that are left. -/
def BookScan.addPages (deps : Deps) (pairAddress : Addr) (side : Side) : ℕ → BookScan → Outcome BookScan
  | 0,s => .ok s
  | i+1,s => do
    if ¬(s.quoteValue<MIN_VALUE ∨ s.orders<MIN_ORDERS) then return s
    else
      let response ← query (deps.finBook pairAddress LIMIT s.orders)
      let book := match side with
        | .base => response.base
        | .quote => response.quote
      if book.isEmpty then genericErr "Order book is too thin to avoid price manipulation"
      else
        let s ← s.addPage side book
        if book.length<LIMIT then return s
        else BookScan.addPages deps pairAddress side i s

variable [Crates]

/-- Away from the other side of the book, to the tick of the pair. -/
def tickTruncated (side : Side) (tick : ℕ) (price : Decimal) : Option Decimal :=
  match side with
  | .base => Crates.truncateCeil tick price
  | .quote => Crates.truncateFloor tick price

/-- `get_side_price`. -/
def getSidePrice (deps : Deps) (pairAddress : Addr) (side : Side) : Outcome Decimal := do
  let s ← BookScan.addPages deps pairAddress side MAX_ITERATIONS ⟨0,0,0⟩
  if s.orders<MIN_ORDERS ∨ s.quoteValue<MIN_VALUE ∨ s.baseDepth=0 then
    genericErr "Order book is too thin to avoid price manipulation"
  else
    let pair ← query (deps.finConfig pairAddress)
    let vwap ← Decimal.fromRatio s.quoteValue s.baseDepth
    Fault.orPanic (tickTruncated side pair.tick vwap)

/-- `get_mid_price`. -/
def getMidPrice (deps : Deps) (address : Addr) : Outcome Decimal := do
  let quotePrice ← getSidePrice deps address .quote
  let basePrice ← getSidePrice deps address .base
  let sum ← quotePrice.add basePrice
  let two ← Decimal.fromRatio 2 1
  sum.div two

end CalcRs
