import CalcRs.Model.Condition

/-! The ratio of two balances in value, and the price that the condition multiplies the balances with. -/
namespace CalcRs

/-- The amounts compared at their worths, where both ratios and the product are rounded down to 18 decimals. -/
def valueRatio (amount amount' worth worth' : ℕ) : Decimal :=
  ⟨amount*Decimal.fractional/amount'*(worth*Decimal.fractional/worth')/Decimal.fractional⟩

theorem natDiv_bounds (n : ℕ) {d : ℕ} (hd : 0<d) : ((n/d : ℕ) : ℚ) ≤ n/d ∧ (n/d : ℚ)<(n/d : ℕ)+1 := by
  have hd' : (0 : ℚ)<d := by exact_mod_cast hd
  constructor
  · rw [le_div_iff₀ hd']
    exact_mod_cast Nat.div_mul_le_self n d
  · rw [div_lt_iff₀ hd']
    have h := Nat.lt_mul_div_succ n hd
    rw [Nat.mul_comm] at h
    exact_mod_cast h

/-- The rounded ratio is the ratio of the values, up to a few units of its last decimal. -/
theorem valueRatio_bounds (amount worth : ℕ) {amount' worth' : ℕ} (ha : 0<amount') (hw : 0<worth') :
    ((valueRatio amount amount' worth worth').atomics : ℚ)/10^18 ≤ (amount*worth : ℚ)/(amount'*worth') ∧
    (amount*worth : ℚ)/(amount'*worth')-(1+(amount : ℚ)/amount'+(worth : ℚ)/worth')/10^18<
      ((valueRatio amount amount' worth worth').atomics : ℚ)/10^18 := by
  have hpos : 0<Decimal.fractional := by decide
  obtain ⟨hx,hx'⟩ := natDiv_bounds (amount*Decimal.fractional) ha
  obtain ⟨hy,hy'⟩ := natDiv_bounds (worth*Decimal.fractional) hw
  obtain ⟨hz,hz'⟩ := natDiv_bounds (amount*Decimal.fractional/amount'*(worth*Decimal.fractional/worth')) hpos
  rw [valueRatio]
  generalize amount*Decimal.fractional/amount'*(worth*Decimal.fractional/worth')/Decimal.fractional=z at hz hz' ⊢
  generalize amount*Decimal.fractional/amount'=x at hx hx' hz hz'
  generalize worth*Decimal.fractional/worth'=y at hy hy' hz hz'
  have hfrac : ((Decimal.fractional : ℕ) : ℚ)=10^18 := by norm_num [Decimal.fractional]
  push_cast at hx hx' hy hy' hz hz'
  rw [hfrac] at hx hx' hy hy' hz hz'
  have hvalue : (amount*worth : ℚ)/(amount'*worth')=(amount/amount')*(worth/worth') := by
    rw [div_mul_div_comm]
  rw [hvalue]
  rw [mul_div_right_comm] at hx hx' hy hy'
  have hX : (0 : ℚ) ≤ amount/amount' := by positivity
  have hY : (0 : ℚ) ≤ worth/worth' := by positivity
  have hy0 : (0 : ℚ) ≤ y := by positivity
  generalize (amount : ℚ)/amount'=a at hx hx' hX ⊢
  generalize (worth : ℚ)/worth'=w at hy hy' hY ⊢
  rw [le_div_iff₀ (by norm_num)] at hz
  rw [div_lt_iff₀ (by norm_num)] at hz'
  constructor
  · rw [div_le_iff₀ (by norm_num)]
    have h1 : (x : ℚ)*y ≤ a*10^18*(w*10^18) := mul_le_mul hx hy hy0 (by positivity)
    linarith
  · rw [lt_div_iff₀ (by norm_num)]
    -- the rounding of either factor costs no more than the other factor
    have h1 : a*10^18*(w*10^18)-a*10^18-w*10^18<x*y+1 := by nlinarith
    nlinarith

namespace AssetValueRatio

section

variable {self : AssetValueRatio}

/-- The price on a pair, as the condition reads it. -/
def readPrice (pair : ConfigResponse) (midPrice : Decimal) (numerator : Denom) : ℕ :=
  if pair.denoms.base=numerator then Decimal.fractional*Decimal.fractional/midPrice.atomics else midPrice.atomics

/-- What a denom of the pair is worth in its quote denom. -/
def worthAt (pair : ConfigResponse) (midPrice : Decimal) (denom : Denom) : ℕ :=
  if pair.denoms.base=denom then midPrice.atomics else Decimal.fractional

/-- A rounded inverse is one or the number itself at one only. -/
theorem inverse_eq {m : ℕ} (h0 : m≠0) (h : Decimal.fractional*Decimal.fractional/m=Decimal.fractional ∨
    Decimal.fractional*Decimal.fractional/m=m) : m=Decimal.fractional := by
  have hf : 0<Decimal.fractional := by decide
  generalize Decimal.fractional=f at h hf ⊢
  have hpos : 0 < m := Nat.pos_of_ne_zero h0
  have hle : f*f/m*m ≤ f*f := Nat.div_mul_le_self _ _
  have hlt : f*f<(f*f/m+1)*m := by
    rw [Nat.mul_comm (_+1)]
    exact Nat.lt_mul_div_succ _ hpos
  rcases h with h | h
  · rw [h] at hle hlt
    apply Nat.le_antisymm
    · exact Nat.le_of_mul_le_mul_left hle hf
    · by_contra hm
      nlinarith
  · rw [h] at hle hlt
    apply Nat.le_antisymm
    · by_contra hm
      nlinarith
    · by_contra hm
      nlinarith

/-- The worth of the numerator in denominators, rounded down to 18 decimals. -/
def relativePrice (self : AssetValueRatio) (pair : ConfigResponse) (midPrice : Decimal) : ℕ :=
  worthAt pair midPrice self.numerator*Decimal.fractional/worthAt pair midPrice self.denominator

/-- The price of a pair is read as it should be at one only. -/
theorem readPrice_eq_iff {pair : ConfigResponse} {midPrice : Decimal} (h0 : midPrice.atomics≠0) :
    readPrice pair midPrice self.numerator=self.relativePrice pair midPrice ↔ midPrice=.one := by
  have hpos : 0<Decimal.fractional := by decide
  have hm : 0 < midPrice.atomics := Nat.pos_of_ne_zero h0
  rw [readPrice,relativePrice,worthAt,worthAt]
  constructor
  · intro h
    suffices hone : midPrice.atomics=Decimal.fractional by
      obtain ⟨_⟩ := midPrice
      exact congrArg Decimal.mk hone
    split_ifs at h
    · rw [Nat.mul_div_cancel_left _ hm] at h
      exact inverse_eq h0 (.inl h)
    · rw [Nat.mul_div_cancel _ hpos] at h
      exact inverse_eq h0 (.inr h)
    · exact inverse_eq h0 (.inr h.symm)
    · rwa [Nat.mul_div_cancel _ hpos] at h
  · rintro rfl
    split_ifs <;> exact rfl

/-- Products with a balance ratio of at least one tell two prices apart. -/
theorem price_eq_of_product {x p q : ℕ} (hx : Decimal.fractional ≤ x)
    (h : x*p/Decimal.fractional=x*q/Decimal.fractional) : p=q := by
  have hpos : 0<Decimal.fractional := by decide
  have hmono : ∀ {a b : ℕ}, a < b → x*a/Decimal.fractional<x*b/Decimal.fractional := fun {a b} hab => by
    refine Nat.lt_of_lt_of_le (Nat.lt_succ_self _) ?_
    rw [Nat.succ_eq_add_one,← Nat.add_div_right _ hpos]
    apply Nat.div_le_div_right
    calc x*a+Decimal.fractional ≤ x*a+x := Nat.add_le_add_left hx _
      _=x*(a+1) := (Nat.mul_succ x a).symm
      _ ≤ x*b := Nat.mul_le_mul_left _ hab
  rcases Nat.lt_trichotomy p q with hlt | heq | hlt
  · exact absurd h (hmono hlt).ne
  · exact heq
  · exact absurd h (hmono hlt).ne'

variable [Crates] {deps : Deps} {env : Env} {amount amount' : ℕ}

/-- The condition compares `value` with the ratio, whatever the ratio and the tolerance are. -/
def Compares (self : AssetValueRatio) (deps : Deps) (env : Env) (value : Decimal) : Prop := ∀ ratio tolerance,
  ({ self with ratio := ratio,tolerance := tolerance } : AssetValueRatio).isSatisfied deps env=
    .ok (decide (value.absDiff ratio<tolerance))

/-- The bank answers with two balances that are not zero. -/
structure Holds (r : AssetValueRatio) (deps : Deps) (env : Env) (amount amount' : ℕ) : Prop where
  numerator : deps.queryBalance env.contract r.numerator=.ok ⟨amount,r.numerator⟩
  denominator : deps.queryBalance env.contract r.denominator=.ok ⟨amount',r.denominator⟩
  positive : 0<amount
  positive' : 0<amount'

/-- What the condition compares is the product of two decimals, if they fit. -/
theorem compares_iff (hb : self.Holds deps env amount amount') {price value : Decimal} (hp : self.price deps=.ok price) :
    self.Compares deps env value ↔ amount*Decimal.fractional/amount'<2^128 ∧ value.atomics<2^128 ∧
      amount*Decimal.fractional/amount'*price.atomics/Decimal.fractional=value.atomics := by
  have hrun : ∀ ratio tolerance, ({ self with ratio := ratio,tolerance := tolerance } : AssetValueRatio).isSatisfied
      deps env=(do
        let balanceRatio ← Decimal.fromRatio amount amount'
        let valueRatio ← balanceRatio.mul price
        return decide (valueRatio.absDiff ratio<tolerance)) := by
    intro ratio tolerance
    have hp : ({ self with ratio := ratio,tolerance := tolerance } : AssetValueRatio).price deps=.ok price := hp
    rw [isSatisfied,hp,hb.numerator,hb.denominator,query_ok,query_ok,Except.ok_bind,if_neg hb.positive.ne',Except.ok_bind,
      if_neg hb.positive'.ne',Except.ok_bind]
  constructor
  · intro h
    -- a tolerance of one unit tells two decimals apart
    have hok := h value ⟨1⟩
    rw [hrun] at hok
    obtain ⟨balanceRatio,hbalance,hok⟩ := Except.bind_eq_ok.mp hok
    obtain ⟨product,hproduct,hok⟩ := Except.bind_eq_ok.mp hok
    obtain ⟨_,hfits,rfl⟩ := Decimal.fromRatio_eq_ok.mp hbalance
    obtain ⟨n,hn,rfl⟩ := Except.map_eq_ok.mp hproduct
    obtain ⟨hfits',rfl⟩ := fits_eq_ok.mp hn
    have hsame := decide_eq_decide.mp (Except.ok.inj hok)
    have hclose := hsame.mpr (by change value.atomics-value.atomics+(value.atomics-value.atomics)<1; omega)
    change _-value.atomics+(value.atomics-_)<1 at hclose
    simp only at hclose hfits'
    have heq : amount*Decimal.fractional/amount'*price.atomics/Decimal.fractional=value.atomics := by omega
    exact ⟨hfits,heq ▸ hfits',heq⟩
  · rintro ⟨hfits,hvalue,heq⟩ ratio tolerance
    rw [hrun,Decimal.fromRatio_eq_ok.mpr ⟨hb.positive'.ne',hfits,rfl⟩,Except.ok_bind,Decimal.mul,heq,fits_of_lt hvalue]
    rfl

theorem compares_price (hb : self.Holds deps env amount amount') {value : Decimal} (h : self.Compares deps env value) :
    ∃ price, self.price deps=.ok price := by
  have hok := h self.ratio self.tolerance
  rw [isSatisfied,hb.numerator,hb.denominator,query_ok,query_ok,Except.ok_bind,if_neg hb.positive.ne',Except.ok_bind,
    if_neg hb.positive'.ne'] at hok
  obtain ⟨price,hprice,_⟩ := Except.bind_eq_ok.mp hok
  exact ⟨price,hprice⟩

theorem price_fin {address : Addr} {midPrice : Decimal} {pair : ConfigResponse} (ho : self.oracle=.fin address)
    (hmid : getMidPrice deps address=.ok midPrice) (hpair : deps.finConfig address=.ok pair) (h0 : midPrice.atomics≠0) :
    self.price deps=.ok ⟨readPrice pair midPrice self.numerator⟩ := by
  rw [price,ho]
  simp only [hmid,Except.ok_bind,if_neg h0,hpair,query_ok,readPrice]
  split_ifs with hbase
  · refine Decimal.fromRatio_eq_ok.mpr ⟨h0,?_,rfl⟩
    exact (Nat.div_le_self _ _).trans_lt (by decide)
  · rfl

theorem price_thorchain {worth worth' : ℕ} (ho : self.oracle=.thorchain)
    (hn : fetchL1AssetPrice deps self.numerator=.ok ⟨worth⟩) (hd : fetchL1AssetPrice deps self.denominator=.ok ⟨worth'⟩)
    (h0 : worth'≠0) : (worth*Decimal.fractional/worth'<2^128 ∧
      self.price deps=.ok ⟨worth*Decimal.fractional/worth'⟩) ∨
      ¬worth*Decimal.fractional/worth'<2^128 ∧ ∀ price, self.price deps≠.ok price := by
  by_cases hfits : worth*Decimal.fractional/worth'<2^128
  · have hdiv : Decimal.checkedDiv ⟨worth⟩ ⟨worth'⟩=.ok ⟨worth*Decimal.fractional/worth'⟩ := by
      rw [Decimal.checkedDiv,if_neg h0,if_pos hfits]
    refine .inl ⟨hfits,?_⟩
    simp only [price,ho,hn,hd,hdiv,Fault.attempt_ok,Except.ok_bind,Except.pure_eq_ok]
  · have hdiv : Decimal.checkedDiv ⟨worth⟩ ⟨worth'⟩=.error (.err (.overflow "CheckedFromRatio")) := by
      rw [Decimal.checkedDiv,if_neg h0,if_neg hfits]
    refine .inr ⟨hfits,fun p hp => ?_⟩
    simp only [price,ho,hn,hd,hdiv,Fault.attempt_err,Except.ok_bind,genericErr,reduceCtorEq] at hp

/-- The condition compares the ratio of the values exactly when the numbers fit and, on a pair, the price is one
or too near to it for the balances: the price of a pair is read the wrong way round. -/
theorem compares_values_iff (hb : self.Holds deps env amount amount') :
    (∀ worth worth', self.oracle=.thorchain → fetchL1AssetPrice deps self.numerator=.ok ⟨worth⟩ →
      fetchL1AssetPrice deps self.denominator=.ok ⟨worth'⟩ → worth'≠0 →
      (self.Compares deps env (valueRatio amount amount' worth worth') ↔
        worth*Decimal.fractional/worth'<2^128 ∧ amount*Decimal.fractional/amount'<2^128 ∧
          (valueRatio amount amount' worth worth').atomics<2^128)) ∧
    (∀ address midPrice pair, self.oracle=.fin address → getMidPrice deps address=.ok midPrice →
      deps.finConfig address=.ok pair → midPrice.atomics≠0 →
      (self.Compares deps env
          (valueRatio amount amount' (worthAt pair midPrice self.numerator) (worthAt pair midPrice self.denominator)) ↔
        amount*Decimal.fractional/amount'<2^128 ∧
          (valueRatio amount amount' (worthAt pair midPrice self.numerator)
            (worthAt pair midPrice self.denominator)).atomics<2^128 ∧
          (midPrice=.one ∨ amount*Decimal.fractional/amount'<Decimal.fractional ∧
            amount*Decimal.fractional/amount'*readPrice pair midPrice self.numerator/Decimal.fractional=
              amount*Decimal.fractional/amount'*self.relativePrice pair midPrice/Decimal.fractional))) ∧
    ∀ worth worth', 0<worth' →
      ((valueRatio amount amount' worth worth').atomics : ℚ)/10^18 ≤ (amount*worth : ℚ)/(amount'*worth') ∧
      (amount*worth : ℚ)/(amount'*worth')-(1+(amount : ℚ)/amount'+(worth : ℚ)/worth')/10^18<
        ((valueRatio amount amount' worth worth').atomics : ℚ)/10^18 := by
  refine ⟨?_,?_,fun worth worth' hw => valueRatio_bounds amount worth hb.positive' hw⟩
  · intro worth worth' ho hn hd h0
    rcases price_thorchain ho hn hd h0 with ⟨hfits,hp⟩ | ⟨hfits,hp⟩
    · rw [compares_iff hb hp]
      constructor
      · rintro ⟨hbalance,hvalue,_⟩
        exact ⟨hfits,hbalance,hvalue⟩
      · rintro ⟨_,hbalance,hvalue⟩
        exact ⟨hbalance,hvalue,rfl⟩
    · refine ⟨fun h => ?_,fun h => absurd h.1 hfits⟩
      obtain ⟨price,hprice⟩ := compares_price hb h
      exact absurd hprice (hp price)
  · intro address midPrice pair ho hmid hpair h0
    rw [compares_iff hb (price_fin ho hmid hpair h0)]
    constructor
    · rintro ⟨hbalance,hvalue,heq⟩
      refine ⟨hbalance,hvalue,?_⟩
      by_cases hsmall : amount*Decimal.fractional/amount'<Decimal.fractional
      · exact .inr ⟨hsmall,heq⟩
      · exact .inl ((readPrice_eq_iff h0).mp (price_eq_of_product (not_lt.mp hsmall) heq))
    · rintro ⟨hbalance,hvalue,hone | ⟨_,heq⟩⟩
      · refine ⟨hbalance,hvalue,?_⟩
        rw [(readPrice_eq_iff h0).mpr hone]
        rfl
      · exact ⟨hbalance,hvalue,heq⟩

end

section

attribute [local instance] Crates.plain

/-- A hundred of each denom, and one price of rune in usd at both sources. -/
def priced (price : Decimal) : Deps :=
  { Deps.withBalance (fun _ _ => 100) with
    finConfig := fun _ => .ok ⟨⟨"rune","usd"⟩,0⟩
    finBook := fun _ _ _ => .ok ⟨List.replicate 4 ⟨price,10^4⟩,List.replicate 4 ⟨price,10^4⟩⟩
    poolTorPrice := fun asset => .ok (if asset="rune" then price else .one) }

/-- The value of the rune against the value of the usd. -/
def runeAgainstUsd (oracle : PriceSource) : AssetValueRatio :=
  ⟨"rune","usd",Decimal.percent 200,Decimal.percent 10,oracle⟩

theorem holds_priced (price : Decimal) (oracle : PriceSource) (block : BlockInfo) :
    (runeAgainstUsd oracle).Holds (priced price) ⟨block,"strategy"⟩ 100 100 := ⟨rfl,rfl,by decide,by decide⟩

/-- At a price of two, as much rune is worth twice the usd; the pair is read as if it were worth half. -/
theorem pair_price_inverted :
    (runeAgainstUsd .thorchain).isSatisfied (priced (Decimal.percent 200)) ⟨⟨1,⟨1⟩⟩,"strategy"⟩=.ok true ∧
    (runeAgainstUsd (.fin "pair")).isSatisfied (priced (Decimal.percent 200)) ⟨⟨1,⟨1⟩⟩,"strategy"⟩=.ok false ∧
    getMidPrice (priced (Decimal.percent 200)) "pair"=.ok (Decimal.percent 200) ∧
    ¬(runeAgainstUsd (.fin "pair")).Compares (priced (Decimal.percent 200)) ⟨⟨1,⟨1⟩⟩,"strategy"⟩
      (valueRatio 100 100 (Decimal.percent 200).atomics Decimal.fractional) := by
  refine ⟨by decide +kernel,by decide +kernel,by decide +kernel,fun h => ?_⟩
  exact absurd (h (Decimal.percent 200) (Decimal.percent 10)) (by decide +kernel)

theorem compares_values_iff_par : (runeAgainstUsd (.fin "pair")).Compares (priced .one) ⟨⟨1,⟨1⟩⟩,"strategy"⟩
    (valueRatio 100 100 Decimal.fractional Decimal.fractional) :=
  ((compares_values_iff (holds_priced .one (.fin "pair") ⟨1,⟨1⟩⟩)).2.1 "pair" .one ⟨⟨"rune","usd"⟩,0⟩ rfl
    (by decide +kernel) rfl (by decide)).mpr ⟨by decide,by decide,.inl rfl⟩

end

end AssetValueRatio
end CalcRs
