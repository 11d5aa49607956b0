import CalcRs.Actions.Shares

/-! One execution pays out each balance to the last unit: portions that are rounded down, and to the last
destination what they leave. -/
namespace CalcRs.Distribution

/-- Between the exact portion and what two roundings can take from it. -/
structure Rounded (balance shares total amount : ℕ) : Prop where
  above : (balance : ℚ)*shares/total-balance/10^18-1<amount
  below : (amount : ℚ) ≤ balance*shares/total

/-- At least the exact portion, and less than it with what `others` roundings can have left. -/
structure Remainder (balance shares total others amount : ℕ) : Prop where
  atLeast : (balance : ℚ)*shares/total ≤ amount
  below : 0<others → (amount : ℚ)<balance*shares/total+others*(1+balance/10^18)
  alone : others=0 → amount=balance

variable {balance total : ℕ}

theorem rounded_portion (balance s : ℕ) (ht : 0<total) : Rounded balance s total (portion balance s total) := by
  have htq : (0 : ℚ)<total := by exact_mod_cast ht
  constructor
  · have h := Decimal.sub_lt_of_scaled_le ht (le_refl (portion balance s total))
    linarith
  · rw [le_div_iff₀ htq]
    exact_mod_cast portion_mul_le balance s total

/-- Portions together, against the portion of all their shares. -/
theorem portions_rounded (shares : List ℕ) (ht : 0<total) :
    ((shares.map fun s => portion balance s total).sum : ℚ) ≤ balance*shares.sum/total ∧
    (0 < shares.length → (balance*shares.sum/total-shares.length*(1+balance/10^18) : ℚ)<
      (shares.map fun s => portion balance s total).sum) := by
  induction shares with
  | nil => simp
  | cons s shares ih =>
    have hs := rounded_portion balance s ht
    have hsplit : (balance*(s+shares.sum : ℕ)/total : ℚ)=balance*s/total+balance*shares.sum/total := by
      rw [Nat.cast_add,mul_add,add_div]
    simp only [List.map_cons,List.sum_cons,List.length_cons,hsplit]
    push_cast at ih ⊢
    refine ⟨add_le_add hs.below ih.1,fun _ => ?_⟩
    have hone := hs.above
    by_cases hnil : shares=[]
    · simp only [hnil,List.map_nil,List.sum_nil,List.length_nil]
      norm_num
      linarith
    · have hrest := ih.2 (List.length_pos_iff.mpr hnil)
      linarith

theorem remainder_rest (shares : List ℕ) (s : ℕ) (ht : 0<total) (hsum : shares.sum+s=total) :
    Remainder balance s total shares.length (balance-(shares.map fun s => portion balance s total).sum) := by
  have htq : (0 : ℚ)<total := by exact_mod_cast ht
  have hle := portions_le balance total shares (by omega)
  obtain ⟨hupper,hlower⟩ := @portions_rounded balance total shares ht
  have hsplit : (balance : ℚ)=balance*shares.sum/total+balance*s/total := by
    rw [← add_div,← mul_add,← Nat.cast_add,hsum,mul_div_cancel_right₀ _ htq.ne']
  constructor
  · rw [Nat.cast_sub hle]
    linarith
  · intro hpos
    have := hlower hpos
    rw [Nat.cast_sub hle]
    linarith
  · intro h0
    rw [List.length_eq_zero_iff.mp h0]
    rfl

/-- The payments of one execution to the destinations, and the messages that carry those that are not empty. -/
structure PaysExactly (d : Distribution) (deps : Deps) (env : Env) (balance : Denom → ℕ)
    (payments : List (Destination × List Coin)) (messages : List CosmosMsg) : Prop where
  destinations : payments.map Prod.fst=d.destinations
  carried : List.Forall₂ (fun p m => p.1.recipient.PaidBy p.2 m) (payments.filter fun p => p.2≠[]) messages
  coins : ∀ m ∈ messages, m.funds≠[] ∧ ∀ c ∈ m.funds, c.amount≠0
  whole : ∀ x ∈ d.denoms, (messages.map fun m => amountIn x m.funds).sum=balance x
  rounded : ∀ i p, payments[i]?=some p → i+1 < d.destinations.length → ∀ x ∈ d.denoms,
    Rounded (balance x) p.1.shares d.totalShares (amountIn x p.2)
  remainder : ∀ i p, payments[i]?=some p → i+1=d.destinations.length → ∀ x ∈ d.denoms,
    Remainder (balance x) p.1.shares d.totalShares i (amountIn x p.2)

theorem carried_funds {payments : List (Destination × List Coin)} {messages : List CosmosMsg}
    (h : List.Forall₂ (fun p m => p.1.recipient.PaidBy p.2 m) payments messages) :
    messages.map CosmosMsg.funds=payments.map Prod.snd := by
  induction h with
  | nil => rfl
  | cons hm _ ih => rw [List.map_cons,List.map_cons,ih,hm.funds]

/-- The empty payments that no message carries are worth nothing. -/
theorem sum_filter_ne_nil (payments : List (Destination × List Coin)) (x : Denom) :
    ((payments.filter fun p => p.2≠[]).map fun p => amountIn x p.2).sum=(payments.map fun p => amountIn x p.2).sum := by
  induction payments with
  | nil => rfl
  | cons p payments ih =>
    rw [List.filter_cons,List.map_cons,List.sum_cons]
    by_cases hnil : p.2=[]
    · rw [if_neg (by simp [hnil]),ih,hnil]
      simp [amountIn]
    · rw [if_pos (by simp [hnil]),List.map_cons,List.sum_cons,ih]

/-- The messages carry the payments that are not empty. -/
theorem executeUnsafe_carried {self self' : Distribution} {deps : Deps} {env : Env} {messages : List CosmosMsg}
    (h : self.executeUnsafe deps env=.ok (messages,self')) :
    List.Forall₂ (fun p m => p.1.recipient.PaidBy p.2 m) ((self.payments deps env).filter fun p => p.2≠[]) messages := by
  obtain ⟨balances,hread,hcase⟩ := executeUnsafe_payments h
  rcases hcase with ⟨hzero,rfl,_⟩ | ⟨_,_,hmessages,_⟩
  · -- nothing is read, so every payment is empty
    suffices hnone : (self.payments deps env).filter (fun p => p.2≠[])=[] by rw [hnone]; exact .nil
    refine List.filter_eq_nil_iff.mpr fun p hp => ?_
    obtain ⟨amount,he⟩ := payouts_coins (payments_eq hread ▸ hp)
    have hempty : balances.toVec.map Coin.denom=[] :=
      List.eq_nil_iff_forall_not_mem.mpr fun x hx => mem_denoms_toVec.mp hx (hzero x)
    rw [he,hempty]
    simp [coinsOf]
  · exact hmessages.imp fun p m hm => Recipient.distributeMessage_eq_ok hm

theorem executeUnsafe_paysExactly {self self' : Distribution} {deps : Deps} {env : Env} {balance : Denom → ℕ}
    {messages : List CosmosMsg} (hn : self.denoms.Nodup) (ht : 0 < self.totalShares)
    (hb : deps.Answers env.contract balance) (h : self.executeUnsafe deps env=.ok (messages,self')) :
    self.PaysExactly deps env balance (self.payments deps env) messages := by
  have hne : self.destinations≠[] := by
    rintro hnil
    rw [totalShares,hnil] at ht
    exact absurd ht (lt_irrefl 0)
  have hcarried := executeUnsafe_carried h
  have hfunds := carried_funds hcarried
  obtain ⟨balances,hread,_⟩ := executeUnsafe_payments h
  refine ⟨payments_fst hread,hcarried,fun m hm => ?_,fun x hx => ?_,fun i p hp hi x hx => ?_,fun i p hp hi x hx => ?_⟩
  · obtain ⟨p,hp,hpm⟩ := List.mem_map.mp (hfunds ▸ List.mem_map.mpr ⟨m,hm,rfl⟩)
    obtain ⟨hp,hne⟩ := List.mem_filter.mp hp
    obtain ⟨amount,he⟩ := payouts_coins (payments_eq hread ▸ hp)
    rw [← hpm]
    refine ⟨by simpa using hne,fun c hc => ?_⟩
    rw [he] at hc
    obtain ⟨y,hy,rfl⟩ := List.mem_map.mp hc
    simpa using (List.mem_filter.mp hy).2
  · have hsum : (messages.map fun m => amountIn x m.funds)=(messages.map CosmosMsg.funds).map (amountIn x) := by
      rw [List.map_map]
      rfl
    rw [hsum,hfunds,List.map_map]
    exact (sum_filter_ne_nil _ x).trans (payments_sum hn hb hread hne hx)
  · rw [payments_amount hn hb hread hp hx,if_neg hi.ne]
    exact rounded_portion _ _ ht
  · have hrest := @remainder_rest (balance x) _ (self.destinations.dropLast.map Destination.shares)
      (self.destinations.getLast hne).shares ht (totalShares_split hne)
    rw [List.map_map,List.length_map,List.length_dropLast,show self.destinations.length-1=i by omega] at hrest
    rw [payments_amount hn hb hread hp hx,if_pos hi,payments_last hread hne hp hi]
    exact hrest

/-- An execution pays out every balance exactly, to each destination its share up to rounding. -/
theorem execute_pays_exactly {self self' : Distribution} {deps : Deps} {env : Env} {balance : Denom → ℕ}
    {messages : List CosmosMsg} (hn : self.denoms.Nodup) (ht : 0 < self.totalShares)
    (hb : deps.Answers env.contract balance) (h : self.executeUnsafe deps env=.ok (messages,self')) :
    ∃ payments, self.PaysExactly deps env balance payments messages :=
  ⟨_,executeUnsafe_paysExactly hn ht hb h⟩

def hundred : Deps := Deps.withBalance fun _ _ => 100

def toBank (shares : ℕ) (address : Addr) : Destination := ⟨shares,.bank address,none,none⟩

/-- A sole destination gets all, which is not less than its exact portion; a denom named twice is paid twice. -/
theorem sole_not_below : (∃ stored, (Distribution.mk ["rune"] [toBank 10000 "alice"]).executeUnsafe hundred
      ⟨⟨1,⟨1⟩⟩,"strategy"⟩=.ok ([.bankSend "alice" [⟨100,"rune"⟩]],stored)) ∧
    ¬(100 : ℚ)<100*10000/(Distribution.mk ["rune"] [toBank 10000 "alice"]).totalShares+(1-1)*(1+100/10^18) ∧
    ∃ stored, (Distribution.mk ["rune","rune"] [toBank 10000 "alice"]).executeUnsafe hundred
      ⟨⟨1,⟨1⟩⟩,"strategy"⟩=.ok ([.bankSend "alice" [⟨200,"rune"⟩]],stored) := by
  refine ⟨⟨⟨["rune"],[⟨10000,.bank "alice",none,some [⟨100,"rune"⟩]⟩]⟩,by decide +kernel⟩,?_,
    ⟨⟨["rune","rune"],[⟨10000,.bank "alice",none,some [⟨200,"rune"⟩]⟩]⟩,by decide +kernel⟩⟩
  norm_num [totalShares,toBank]

theorem execute_pays_exactly_thirds : ∃ payments,
    (Distribution.mk ["rune"] [toBank 3333 "alice",toBank 3333 "bob",toBank 3334 "carol"]).PaysExactly hundred
      ⟨⟨1,⟨1⟩⟩,"strategy"⟩ (fun _ => 100) payments
      [.bankSend "alice" [⟨33,"rune"⟩],.bankSend "bob" [⟨33,"rune"⟩],.bankSend "carol" [⟨34,"rune"⟩]] := by
  have h : (Distribution.mk ["rune"] [toBank 3333 "alice",toBank 3333 "bob",toBank 3334 "carol"]).executeUnsafe hundred
      ⟨⟨1,⟨1⟩⟩,"strategy"⟩=.ok ([.bankSend "alice" [⟨33,"rune"⟩],.bankSend "bob" [⟨33,"rune"⟩],
        .bankSend "carol" [⟨34,"rune"⟩]],⟨["rune"],[⟨3333,.bank "alice",none,some [⟨33,"rune"⟩]⟩,
        ⟨3333,.bank "bob",none,some [⟨33,"rune"⟩]⟩,⟨3334,.bank "carol",none,some [⟨34,"rune"⟩]⟩]⟩) := by
    decide +kernel
  exact execute_pays_exactly (by decide) (by decide) (fun _ => rfl) h

end CalcRs.Distribution
