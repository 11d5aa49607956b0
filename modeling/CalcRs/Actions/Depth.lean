import CalcRs.Actions.Overflow
import CalcRs.Foundation.Lists

/-! The price of one side of an order book. The loop over its pages reads a prefix of the book, up to the first order
at which that is deep enough. -/
namespace CalcRs

/-- What an order is worth in the quote denom. -/
def orderValue (side : Side) (order : BookItemResponse) : ℕ :=
  match side with
  | .base => order.total*order.price.atomics/Decimal.fractional
  | .quote => order.total

/-- What an order is for in the base denom. -/
def orderDepth (side : Side) (order : BookItemResponse) : ℕ :=
  match side with
  | .base => order.total
  | .quote => (order.total*Decimal.fractional+(order.price.atomics-1))/order.price.atomics

/-- The value of the first `k` orders. -/
def firstValue (side : Side) (orders : List BookItemResponse) (k : ℕ) : ℕ := ((orders.take k).map (orderValue side)).sum

/-- The depth of the first `k` orders. -/
def firstDepth (side : Side) (orders : List BookItemResponse) (k : ℕ) : ℕ := ((orders.take k).map (orderDepth side)).sum

/-- The first `k` orders are looked at and deep enough. -/
def Enough (side : Side) (orders : List BookItemResponse) (k : ℕ) : Prop :=
  MIN_ORDERS ≤ k ∧ k ≤ min (MAX_ITERATIONS*LIMIT) orders.length ∧ MIN_VALUE ≤ firstValue side orders k

instance (side : Side) (orders : List BookItemResponse) (k : ℕ) : Decidable (Enough side orders k) :=
  inferInstanceAs (Decidable (_ ∧ _ ∧ _))

/-- The average price of the first `k` orders. -/
def averagePrice (side : Side) (orders : List BookItemResponse) (k : ℕ) : Decimal :=
  ⟨firstValue side orders k*Decimal.fractional/firstDepth side orders k⟩

theorem orderValue_le {side : Side} {order : BookItemResponse} (h : order.price.atomics≠0) :
    orderValue side order*Decimal.fractional ≤ order.price.atomics*orderDepth side order := by
  cases side with
  | base =>
    rw [Nat.mul_comm order.price.atomics]
    exact Nat.div_mul_le_self _ _
  | quote =>
    have hpos := Nat.pos_of_ne_zero h
    have hlt := Nat.lt_mul_div_succ (order.total*Decimal.fractional+(order.price.atomics-1)) hpos
    rw [Nat.mul_add,Nat.mul_one] at hlt
    rw [orderValue,orderDepth]
    omega

/-- The first orders that are worth anything are for something, at no more than their highest price. -/
theorem averagePrice_le {side : Side} {orders : List BookItemResponse} {k : ℕ} (hk : 0<firstValue side orders k)
    (h : ∀ order ∈ orders, order.price.atomics≠0) :
    firstDepth side orders k≠0 ∧ ∃ order ∈ orders.take k, averagePrice side orders k ≤ order.price := by
  have hnil : orders.take k≠[] := fun h0 => by simp [firstValue,h0] at hk
  obtain ⟨order,horder,hle⟩ := exists_sum_map_le_mul hnil fun order horder =>
    @orderValue_le side order (h order (List.mem_of_mem_take horder))
  rw [List.sum_map_mul_right] at hle
  have hle : firstValue side orders k*Decimal.fractional ≤ order.price.atomics*firstDepth side orders k := hle
  have hdepth : firstDepth side orders k≠0 := by
    intro h0
    rw [h0,Nat.mul_zero] at hle
    exact absurd hle (not_le.mpr (Nat.mul_pos hk (by decide)))
  refine ⟨hdepth,order,horder,?_⟩
  exact Nat.div_le_of_le_mul (hle.trans_eq (Nat.mul_comm _ _))

namespace BookScan

/-- The accumulators after the first `k` orders. -/
def after (side : Side) (orders : List BookItemResponse) (k : ℕ) : BookScan :=
  ⟨k,firstValue side orders k,firstDepth side orders k⟩

/-- The first `k` orders are deep enough, and no fewer are. -/
structure StopsAt (side : Side) (orders : List BookItemResponse) (k : ℕ) : Prop where
  deep : (after side orders k).Deep
  least : ∀ j<k, ¬(after side orders j).Deep

/-- Nothing that the scan adds up on its way overflows. -/
def SumsFit (side : Side) (orders : List BookItemResponse) (k : ℕ) : Prop :=
  (∀ j<k, ¬(after side orders j).Deep) → firstValue side orders k<2^128 ∧ firstDepth side orders k<2^128

variable {side : Side} {orders : List BookItemResponse} {deps : Deps} {pair : Addr}

theorem addOrder_after {n : ℕ} (hn : n<orders.length) (hcount : n+1<2^8) (hprice : orders[n].price.atomics≠0)
    (hvalue : firstValue side orders (n+1)<2^128) (hdepth : firstDepth side orders (n+1)<2^128) :
    (after side orders n).addOrder side orders[n]=.ok (after side orders (n+1)) := by
  have hv : firstValue side orders (n+1)=firstValue side orders n+orderValue side orders[n] := sum_map_take_succ hn _
  have hd : firstDepth side orders (n+1)=firstDepth side orders n+orderDepth side orders[n] := sum_map_take_succ hn _
  rw [hv] at hvalue
  rw [hd] at hdepth
  unfold addOrder
  rw [if_neg hprice,after,after,hv,hd]
  have hnext : U8.add n 1=.ok (n+1) := fits_of_lt hcount
  cases side with
  | base =>
    simp only [orderValue,orderDepth] at hvalue hdepth ⊢
    have hmul : Uint128.mulFloor orders[n].total orders[n].price=
      .ok (orders[n].total*orders[n].price.atomics/Decimal.fractional) := fits_of_lt (by omega)
    rw [hmul,Except.ok_bind,Uint128.checkedAdd_eq_ok.mpr ⟨hvalue,rfl⟩,Except.ok_bind,
      Uint128.checkedAdd_eq_ok.mpr ⟨hdepth,rfl⟩,Except.ok_bind,hnext]
    rfl
  | quote =>
    simp only [orderValue,orderDepth] at hvalue hdepth ⊢
    have hdiv : Uint128.divCeil orders[n].total orders[n].price=
        .ok ((orders[n].total*Decimal.fractional+(orders[n].price.atomics-1))/orders[n].price.atomics) := by
      rw [Uint128.divCeil,if_neg hprice]
      exact fits_of_lt (by omega)
    rw [Uint128.checkedAdd_eq_ok.mpr ⟨hvalue,rfl⟩,Except.ok_bind,hdiv,Except.ok_bind,
      Uint128.checkedAdd_eq_ok.mpr ⟨hdepth,rfl⟩,Except.ok_bind,hnext]
    rfl

/-- A page from the first unread order on is read up to the order at which the scan is deep enough, or to its end. -/
theorem addPage_after {n m : ℕ} (hn : n ≤ orders.length) (hcount : n+m<2^8) (hprice : ∀ order ∈ orders, order.price.atomics≠0)
    (hfits : ∀ k ≤ min (n+m) orders.length, SumsFit side orders k) (hnone : ∀ j ≤ n, ¬(after side orders j).Deep) :
    (∃ k ≤ min (n+m) orders.length, StopsAt side orders k ∧
      (after side orders n).addPage side ((orders.drop n).take m)=.ok (after side orders k)) ∨
    ((∀ j ≤ min (n+m) orders.length, ¬(after side orders j).Deep) ∧
      (after side orders n).addPage side ((orders.drop n).take m)=.ok (after side orders (min (n+m) orders.length))) := by
  induction m generalizing n with
  | zero =>
    rw [Nat.add_zero,Nat.min_eq_left hn]
    exact .inr ⟨hnone,rfl⟩
  | succ m ih =>
    rcases Nat.lt_or_eq_of_le hn with hlt | rfl
    · have hleast : ∀ j<n+1, ¬(after side orders j).Deep := fun j hj => hnone j (by omega)
      obtain ⟨hvalue,hdepth⟩ := hfits (n+1) (by omega) hleast
      rw [List.drop_eq_getElem_cons hlt,List.take_succ_cons,addPage,
        addOrder_after hlt (by omega) (hprice _ (List.getElem_mem hlt)) hvalue hdepth,Except.ok_bind]
      by_cases hdeep : (after side orders (n+1)).Deep
      · rw [if_pos (show MIN_ORDERS ≤ _ ∧ MIN_VALUE ≤ _ from hdeep)]
        exact .inl ⟨n+1,by omega,⟨hdeep,hleast⟩,rfl⟩
      · rw [if_neg (show ¬(MIN_ORDERS ≤ _ ∧ MIN_VALUE ≤ _) from hdeep)]
        have hnone' : ∀ j ≤ n+1, ¬(after side orders j).Deep := fun j hj => by
          rcases Nat.lt_or_eq_of_le hj with hj | rfl
          · exact hleast j hj
          · exact hdeep
        have hsum : n+(m+1)=n+1+m := by omega
        rw [hsum] at hcount hfits ⊢
        exact ih hlt hcount hfits hnone'
    · rw [List.drop_length,Nat.min_eq_right (Nat.le_add_right _ _)]
      exact .inr ⟨hnone,rfl⟩

/-- A scan that is deep enough reads no more pages. -/
theorem addPages_deep {s : BookScan} (h : s.Deep) (i : ℕ) : addPages deps pair side i s=.ok s := by
  cases i with
  | zero => rfl
  | succ i => rw [addPages_succ,if_pos (deep_iff.mpr h)]

/-- The pair answers with the slice of a fixed list that is asked for. -/
def Answers (deps : Deps) (pair : Addr) (side : Side) (orders : List BookItemResponse) : Prop :=
  ∀ limit offset, ∃ response, deps.finBook pair limit offset=.ok response ∧
    sideOf response side=(orders.drop offset).take limit

/-- The pages are read up to the order at which the scan is deep enough, or all of them, or up to one that is empty. -/
theorem addPages_after (hbook : Answers deps pair side orders) (hprice : ∀ order ∈ orders, order.price.atomics≠0)
    {n i : ℕ} (hn : n ≤ orders.length) (hcount : n+i*LIMIT<2^8) (hfits : ∀ k ≤ min (n+i*LIMIT) orders.length, SumsFit side orders k)
    (hnone : ∀ j ≤ n, ¬(after side orders j).Deep) :
    (∃ k ≤ min (n+i*LIMIT) orders.length, StopsAt side orders k ∧
      addPages deps pair side i (after side orders n)=.ok (after side orders k)) ∨
    ((∀ j ≤ min (n+i*LIMIT) orders.length, ¬(after side orders j).Deep) ∧
      (addPages deps pair side i (after side orders n)=
          genericErr "Order book is too thin to avoid price manipulation" ∨
        addPages deps pair side i (after side orders n)=.ok (after side orders (min (n+i*LIMIT) orders.length)))) := by
  induction i generalizing n with
  | zero =>
    rw [Nat.zero_mul,Nat.add_zero,Nat.min_eq_left hn]
    exact .inr ⟨hnone,.inr rfl⟩
  | succ i ih =>
    obtain ⟨response,hresponse,hside⟩ := hbook LIMIT n
    have hquery : query (deps.finBook pair LIMIT (after side orders n).orders)=.ok response := by
      rw [after,hresponse,query_ok]
    rw [addPages_succ,if_neg (mt deep_iff.mp (hnone n le_rfl)),hquery,Except.ok_bind,hside]
    rcases Nat.lt_or_eq_of_le hn with hlt | rfl
    · have hlength : ((orders.drop n).take LIMIT).length=min LIMIT (orders.length-n) := by
        rw [List.length_take,List.length_drop]
      have hpage : ¬((orders.drop n).take LIMIT).isEmpty := by
        rw [List.isEmpty_iff_length_eq_zero,hlength,LIMIT]
        omega
      have hmul : n+(i+1)*LIMIT=n+LIMIT+i*LIMIT := by rw [Nat.succ_mul,Nat.add_assoc,Nat.add_comm LIMIT]
      rw [hmul] at hcount hfits ⊢
      rw [if_neg hpage,hlength]
      have hread : ∀ k ≤ min (n+LIMIT) orders.length, SumsFit side orders k := fun k hk => hfits k (by omega)
      rcases addPage_after hn (by omega) hprice hread hnone with ⟨k,hk,hstop,hscan⟩ | ⟨hnone',hscan⟩
      -- the scan stops on this page, and the other pages are not asked for
      · refine .inl ⟨k,by omega,hstop,?_⟩
        rw [hscan,Except.ok_bind,addPages_deep hstop.deep,ite_self]
      · rw [hscan,Except.ok_bind]
        by_cases hshort : min LIMIT (orders.length-n)<LIMIT
        · have hall : min (n+LIMIT) orders.length=min (n+LIMIT+i*LIMIT) orders.length := by omega
          rw [if_pos hshort,← hall]
          exact .inr ⟨hnone',.inr rfl⟩
        · have hfull : min (n+LIMIT) orders.length=n+LIMIT := by omega
          rw [if_neg hshort,hfull]
          rw [hfull] at hnone'
          exact ih (by omega) hcount hfits hnone'
    · rw [List.drop_length]
      exact .inr ⟨fun j hj => hnone j (hj.trans (Nat.min_le_right _ _)),.inl rfl⟩

end BookScan

theorem enough_iff {side : Side} {orders : List BookItemResponse} {k : ℕ} : Enough side orders k ↔
    k ≤ min (MAX_ITERATIONS*LIMIT) orders.length ∧ (BookScan.after side orders k).Deep := by
  rw [Enough,BookScan.Deep,BookScan.after]
  exact and_left_comm

section

variable [Crates] {deps : Deps} {pair : Addr} {side : Side} {orders : List BookItemResponse}

theorem getSidePrice_thin {s : BookScan} (h : ¬s.Deep)
    (hscan : BookScan.addPages deps pair side MAX_ITERATIONS ⟨0,0,0⟩=.ok s) :
    getSidePrice deps pair side=genericErr "Order book is too thin to avoid price manipulation" := by
  rw [getSidePrice,hscan,Except.ok_bind,if_pos]
  rw [BookScan.Deep] at h
  omega

theorem getSidePrice_deep {s : BookScan} (h : s.Deep) (h0 : s.baseDepth≠0)
    (hratio : s.quoteValue*Decimal.fractional/s.baseDepth<2^128)
    (hscan : BookScan.addPages deps pair side MAX_ITERATIONS ⟨0,0,0⟩=.ok s) {config : ConfigResponse}
    (hconfig : deps.finConfig pair=.ok config) : getSidePrice deps pair side=
      Fault.orPanic (tickTruncated side config.tick ⟨s.quoteValue*Decimal.fractional/s.baseDepth⟩) := by
  have hdeep : ¬(s.orders<MIN_ORDERS ∨ s.quoteValue<MIN_VALUE ∨ s.baseDepth=0) := by
    rw [BookScan.Deep] at h
    omega
  rw [getSidePrice,hscan,Except.ok_bind,if_neg hdeep,hconfig,query_ok,Except.ok_bind,
    Decimal.fromRatio_eq_ok.mpr ⟨h0,hratio,rfl⟩,Except.ok_bind]

end

section

attribute [local instance] Crates.plain

/-- Four orders at a price of one and two at one and a half, each for 2000. -/
def steppedBook : List BookItemResponse := List.replicate 4 ⟨.one,2000⟩ ++ List.replicate 2 ⟨.percent 150,2000⟩

def steppedMarket : Deps :=
  { Deps.silent with
    finConfig := fun _ => .ok ⟨⟨"rune","usd"⟩,6⟩
    finBook := fun _ limit offset => .ok ⟨(steppedBook.drop offset).take limit,[]⟩ }

end

end CalcRs
