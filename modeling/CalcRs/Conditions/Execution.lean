import CalcRs.Model.Schedule

/-! What an execution of a schedule goes through, and what its commit stores. -/
namespace CalcRs.Schedule

section

variable [Crates] {s s₁ : Schedule} {deps : Deps} {env : Env}

/-- A due schedule stores its cranked cadence beside the old one, any other stays as it is. -/
theorem advance_eq_ok {condition : Condition} (h : s.advance env=.ok (condition,s₁)) :
    s.cadence.isDue env=.ok true ∧ (∃ current, s.cadence.crank env=.ok current ∧
        current.intoCondition env=.ok condition ∧ s₁={ s with next := some current }) ∨
      s.cadence.isDue env=.ok false ∧ s.cadence.intoCondition env=.ok condition ∧ s₁=s := by
  obtain ⟨due,hdue,h⟩ := Except.bind_eq_ok.mp h
  cases due with
  | false =>
    obtain ⟨_,hinto,h⟩ := Except.bind_eq_ok.mp h
    cases h
    exact .inr ⟨hdue,hinto,rfl⟩
  | true =>
    obtain ⟨current,hcrank,h⟩ := Except.bind_eq_ok.mp h
    obtain ⟨_,hinto,h⟩ := Except.bind_eq_ok.mp h
    cases h
    exact .inl ⟨hdue,current,hcrank,hinto,rfl⟩

/-- An execution that returns passed the limit, computed the rebate and sends the trigger. -/
theorem executeUnsafe_eq_ok {messages : List CosmosMsg} {stored : Condition}
    (h : s.executeUnsafe deps env=.ok (messages,stored)) : ∃ rebate condition s₁, s.checkExecutions=.ok () ∧
      s.rebate deps env=.ok rebate ∧ s.advance env=.ok (condition,s₁) ∧ stored=.schedule s₁ ∧
      messages=[.wasmExecute s.schedulerAddress (.scheduler (.create (s.createTriggerMsg env condition))) rebate.toVec] := by
  obtain ⟨_,hcheck,h⟩ := Except.bind_eq_ok.mp h
  obtain ⟨rebate,hrebate,h⟩ := Except.bind_eq_ok.mp h
  obtain ⟨⟨condition,s₁⟩,hadvance,h⟩ := Except.bind_eq_ok.mp h
  cases h
  refine ⟨rebate,condition,s₁,hcheck,hrebate,hadvance,rfl,?_⟩
  obtain ⟨_,_,_,_,rfl⟩ | ⟨_,_,rfl⟩ := advance_eq_ok hadvance
  · rfl
  · rfl

end

/-- A commit counts an execution exactly when a next cadence is set. -/
theorem commit_eq_ok {s : Schedule} {c : Condition} (h : s.commit=.ok c) : s.next=none ∧ c=.schedule s ∨
    ∃ next, s.next=some next ∧
      c=.schedule { s with cadence := next,next := none,executions := some (s.executions.getD 0+1) } := by
  rw [commit] at h
  cases hn : s.next with
  | none =>
    rw [hn] at h
    exact .inl ⟨rfl,(Except.ok.inj h).symm⟩
  | some next =>
    rw [hn] at h
    obtain ⟨n,hcount,h⟩ := Except.bind_eq_ok.mp h
    have hn : n=s.executions.getD 0+1 := by
      rw [countExecution] at hcount
      cases hx : s.executions with
      | none =>
        rw [hx] at hcount
        exact (Except.ok.inj hcount).symm
      | some e =>
        rw [hx] at hcount
        exact (fits_eq_ok.mp hcount).2.symm
    subst hn
    exact .inr ⟨next,rfl,(Except.ok.inj h).symm⟩

end CalcRs.Schedule
