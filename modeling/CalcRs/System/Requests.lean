import CalcRs.Model.Manager

/-! What a call of the manager does when it is accepted: what it needs, what it registers, what it sends. -/
namespace CalcRs.ManagerContract

theorem load_eq_ok {storage : ManagerStorage} {a : Addr} {strategy : Strategy} (h : load storage a=.ok strategy) :
    storage.strategies.get? a=some strategy := by
  unfold load at h
  cases hg : storage.strategies.get? a with
  | some s => simpa [hg] using h
  | none => simp [hg] at h

variable [Crates] {deps : Deps} {env : Env} {info : MessageInfo} {storage storage' : ManagerStorage}
  {msg : ManagerExecuteMsg} {response : ManagerResponse}

/-- The effect of each accepted call. A new strategy gets the next id, and the address of its salt. -/
inductive Accepts (deps : Deps) (env : Env) (info : MessageInfo) (storage : ManagerStorage) :
    ManagerExecuteMsg → ManagerStorage → ManagerResponse → Prop
  | instantiate {source : Option String} {owner : Option Addr} {label : String} {affiliates : List Affiliate}
      {nodes : List Node} {creator a : Addr} {total id salt : ℕ} : creator=owner.getD info.sender →
      deps.addrValidate creator=true → labelFits label=true → affiliates.foldlM (checkAffiliate deps) 0=.ok total →
      id=storage.strategyCounter+1 → id<2^64 →
      salt=Crates.hash (asBytes creator ++ littleEndian 8 id ++ littleEndian 8 env.block.height) →
      a=Crates.instantiate2Address storage.config.strategyCodeId env.contract salt →
      Accepts deps env info storage (.instantiate source owner label affiliates nodes)
        (save { storage with strategyCounter := id } a
          ⟨id,source,creator,a,env.block.time.seconds,env.block.time.seconds,label,.active⟩)
        ⟨.create creator a,[⟨.instantiate2 (some creator) storage.config.strategyCodeId label salt
          ⟨a,creator,withCalc storage.config affiliates total,nodes⟩ info.funds,.never,0⟩]⟩
  | execute {a : Addr} {strategy : Strategy} : storage.strategies.get? a=some strategy → strategy.status=.active →
      Accepts deps env info storage (.execute a) (save storage a { strategy with updatedAt := env.block.time.seconds })
        ⟨.execute info.sender a,[callStrategy a .execute info.funds]⟩
  | update {a : Addr} {nodes : List Node} {strategy : Strategy} : storage.strategies.get? a=some strategy →
      strategy.owner=info.sender →
      Accepts deps env info storage (.update a nodes)
        (save storage a { strategy with updatedAt := env.block.time.seconds })
        ⟨.update a,[callStrategy a (.update nodes) info.funds]⟩
  | updateStatus {a : Addr} {status : StrategyStatus} {strategy : Strategy} : storage.strategies.get? a=some strategy →
      strategy.owner=info.sender →
      Accepts deps env info storage (.updateStatus a status)
        (save storage a { strategy with status := status,updatedAt := env.block.time.seconds })
        ⟨.updateStatus status.asStr a,[callStrategy a (statusMsg status) info.funds]⟩
  | updateLabel {a : Addr} {label : String} {strategy : Strategy} : labelFits label=true →
      storage.strategies.get? a=some strategy → strategy.owner=info.sender →
      Accepts deps env info storage (.updateLabel a label) (save storage a { strategy with label := label })
        ⟨.updateLabel label a,[]⟩

theorem execute_accepts (h : execute deps env info storage msg=.ok (storage',response)) :
    Accepts deps env info storage msg storage' response := by
  cases msg with
  | instantiate source owner label affiliates nodes =>
    simp only [execute,instantiateStrategy,genericErr,Except.ite_error_eq_ok,Bool.not_eq_false] at h
    obtain ⟨howner,hlabel,h⟩ := h
    obtain ⟨total,htotal,h⟩ := Except.bind_eq_ok.mp h
    obtain ⟨id,hid,h⟩ := Except.bind_eq_ok.mp h
    obtain ⟨hlt,rfl⟩ := fits_eq_ok.mp hid
    simp only [Except.ite_error_eq_ok] at h
    obtain ⟨_,_,h⟩ := Except.bind_eq_ok.mp h.2
    cases h
    exact .instantiate rfl howner hlabel htotal rfl hlt rfl rfl
  | execute a =>
    obtain ⟨strategy,hl,h⟩ := Except.bind_eq_ok.mp h
    simp only [genericErr,Except.ite_error_eq_ok,not_not] at h
    obtain ⟨hs,h⟩ := h
    cases h
    exact .execute (load_eq_ok hl) hs
  | update a nodes =>
    obtain ⟨strategy,hl,h⟩ := Except.bind_eq_ok.mp h
    simp only [Except.ite_error_eq_ok,not_not] at h
    obtain ⟨ho,h⟩ := h
    cases h
    exact .update (load_eq_ok hl) ho
  | updateStatus a status =>
    obtain ⟨strategy,hl,h⟩ := Except.bind_eq_ok.mp h
    simp only [Except.ite_error_eq_ok,not_not] at h
    obtain ⟨ho,h⟩ := h
    cases h
    exact .updateStatus (load_eq_ok hl) ho
  | updateLabel a label =>
    simp only [execute,genericErr,Except.ite_error_eq_ok,Bool.not_eq_false] at h
    obtain ⟨hlabel,h⟩ := h
    obtain ⟨strategy,hl,h⟩ := Except.bind_eq_ok.mp h
    simp only [Except.ite_error_eq_ok,not_not] at h
    obtain ⟨ho,h⟩ := h
    cases h
    exact .updateLabel hlabel (load_eq_ok hl) ho

end CalcRs.ManagerContract
