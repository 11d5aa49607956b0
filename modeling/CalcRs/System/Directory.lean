import CalcRs.Foundation.Paging
import CalcRs.System.Registry

/-! The strategies by their addresses, page by page, while the chain goes on. The cursor is the address of the last
strategy of a page: it is in nobody's way, since no two strategies share it and none ever moves. -/
namespace CalcRs

section

variable [Crates]

namespace Site

open ManagerContract (strategiesById)

variable {site : Site} {w w' w₀ : World} {limit : Option ℕ} {listed : List CalcRs.Strategy}

/-- Transactions take place between two pages. -/
def later (site : Site) (w w' : World) : Prop := Dispatch.Reachable site.machine Dispatch.Conduct.any w ⟨w',[]⟩

/-- A reader of the registry, from the first page to one that is empty. -/
abbrev Reads (site : Site) (limit : Option ℕ) (w : World) (listed : List CalcRs.Strategy) (w' : World) : Prop :=
  Paging.Tour site.later (fun w startAfter => strategiesById w.manager startAfter limit) Strategy.contractAddress w none
    listed w'

/-- The strategies of the registry grow in the order of their addresses. -/
theorem registry_grows (site : Site) (h₀ : w₀.Vacant) : Paging.Grows (site.later w₀) site.later (fun w => w.manager.strategies.values)
    Strategy.contractAddress fun s s' => s'.identity=s.identity where
  sorted w hw := by
    have hroll := ((Enrolled.vacant h₀).reached hw).roll
    have haddress : ∀ e ∈ w.manager.strategies.entries, e.2.contractAddress=e.1 := fun e he =>
      (hroll.entry e.1 e.2.identity (by rw [Table.get?_eq_some_iff.mpr he,Option.map_some])).1
    refine List.pairwise_map.mpr (w.manager.strategies.sorted.imp_of_mem fun {e f} he hf hlt => ?_)
    rw [haddress e he,haddress f hf]
    exact hlt
  stays _ _ hw hlater := hw.after hlater
  kept w w' hw hlater s hs := by
    obtain ⟨a,hg⟩ := Table.mem_values.mp hs
    obtain ⟨s',hg',hid⟩ := ((Enrolled.vacant h₀).reached hw).persists hlater hg
    exact ⟨s',Table.mem_values.mpr ⟨a,hg'⟩,hid⟩
  refl _ := rfl
  trans _ _ _ h h' := h'.trans h
  same_pos _ _ h := (congrArg Identity.contractAddress h).symm

/-- A page is what is above the cursor, up to the limit. -/
theorem strategiesById_eq (h₀ : w₀.Vacant) (startAfter : Option Addr) (hw : site.later w₀ w) :
    strategiesById w.manager startAfter limit=
      (Paging.above Strategy.contractAddress w.manager.strategies.values startAfter).take (limit.getD 30) := by
  have hroll := ((Enrolled.vacant h₀).reached hw).roll
  have hfilter : w.manager.strategies.entries.filter (fun e => startAfter.all (·<e.1))=
      w.manager.strategies.entries.filter ((fun s => startAfter.all (· < s.contractAddress)) ∘ Prod.snd) := by
    refine List.filter_congr fun e he => ?_
    have haddress : e.2.contractAddress=e.1 :=
      (hroll.entry e.1 e.2.identity (by rw [Table.get?_eq_some_iff.mpr he,Option.map_some])).1
    rw [Function.comp_apply,haddress]
  rw [strategiesById,Paging.above,Table.values,List.filter_map,hfilter]

/-- Whatever takes place between the pages, a reader sees every strategy that was registered when the first page was read,
in the order of the addresses and none twice; and all that is seen is registered at the end. -/
theorem directory_complete (h₀ : w₀.Vacant) (hw : site.later w₀ w) (hl : 1 ≤ limit.getD 30)
    (h : site.Reads limit w listed w') :
    (∀ a s, w.manager.strategies.get? a=some s → ∃ s' ∈ listed, s'.identity=s.identity) ∧
    listed.Pairwise (fun s t => s.contractAddress<t.contractAddress) ∧
    ∀ s ∈ listed, ∃ s', w'.manager.strategies.get? s.contractAddress=some s' ∧ s'.identity=s.identity := by
  have hgrows := registry_grows site h₀
  have hfetch : ∀ w startAfter, site.later w₀ w → strategiesById w.manager startAfter limit=
      (Paging.above Strategy.contractAddress w.manager.strategies.values startAfter).take (limit.getD 30) :=
    fun _ startAfter hw => strategiesById_eq h₀ startAfter hw
  refine ⟨fun a s hg => ?_,(h.sorted hgrows hfetch hw).1,fun s hs => ?_⟩
  · exact h.covers hgrows hl hfetch hw s (List.mem_filter.mpr ⟨Table.mem_values.mpr ⟨a,hg⟩,rfl⟩)
  · obtain ⟨s',hs',hid⟩ := (h.found hgrows hfetch hw).2 s hs
    obtain ⟨a,hg⟩ := Table.mem_values.mp hs'
    have hend : ∀ {v v' : World} {after result}, site.later w₀ v → Paging.Tour site.later
        (fun w startAfter => strategiesById w.manager startAfter limit) Strategy.contractAddress v after result v' →
        site.later w₀ v' := by
      intro v v' after result hv htour
      induction htour with
      | stop _ => exact hv
      | next _ hm _ ih => exact ih (hv.after hm)
    have hroll := ((Enrolled.vacant h₀).reached (hend hw h)).roll
    have haddress := (hroll.entry a s'.identity (by rw [hg,Option.map_some])).1
    have hsame : s.contractAddress=a := (congrArg Identity.contractAddress hid).symm.trans haddress
    exact ⟨s',hsame ▸ hg,hid⟩

end Site

end

namespace Site

open ManagerContract (strategiesById)

attribute [local instance] Crates.plain

/-- Two pages of one strategy: the second strategy was created after the first page was read. -/
theorem directory_complete_founded : ∃ w w' listed, founded=some w ∧ town.Reads (some 1) w listed w' ∧
    listed.map (fun s => s.id)=[1,2] ∧ listed.Pairwise (fun s t => s.contractAddress<t.contractAddress) ∧
    ∀ s ∈ listed, ∃ s', w'.manager.strategies.get? s.contractAddress=some s' ∧ s'.identity=s.identity := by
  have hsound : (dawn fun _ => true).Sound town.machine Dispatch.Conduct.any :=
    player_sound townsfolk_outside (fun _ => trivial) fun _ => trivial
  let number := fun s : CalcRs.Strategy => (s.id,s.contractAddress)
  have hrun : (founded.bind fun w => ((dawn fun _ => true).transact 6 w
      (asks (.instantiate none (some "barbara") "rent" [] []))).map fun w' =>
        ((strategiesById w.manager none (some 1)).map number,
          (strategiesById w'.manager (some "manager/21") (some 1)).map number,
          (strategiesById w'.manager (some "manager/23") (some 1)).map number))=
      some ([(1,"manager/21")],[(2,"manager/23")],[]) := by decide +kernel
  obtain ⟨w,hw,hrun⟩ := Option.bind_eq_some_iff.mp hrun
  obtain ⟨w',hw',hrun⟩ := Option.map_eq_some_iff.mp hrun
  obtain ⟨hfirst,hrun⟩ := Prod.mk.inj hrun
  obtain ⟨hsecond,hlast⟩ := Prod.mk.inj hrun
  obtain ⟨s,hpage,hs⟩ := List.map_eq_singleton_iff.mp hfirst
  obtain ⟨t,hpage',ht⟩ := List.map_eq_singleton_iff.mp hsecond
  have hstart := founded_reachable hw
  have hlater : town.later w w' := hsound.transact .start (alice_outside _) hw'
  have hsaddress : s.contractAddress="manager/21" := congrArg Prod.snd hs
  have htaddress : t.contractAddress="manager/23" := congrArg Prod.snd ht
  have hreads : town.Reads (some 1) w ([s] ++ ([t] ++ [])) w' := by
    refine Paging.Tour.page hpage List.getLast?_singleton hlater ?_
    rw [hsaddress]
    refine Paging.Tour.page hpage' List.getLast?_singleton .start ?_
    rw [htaddress]
    exact .stop (List.map_eq_nil_iff.mp hlast)
  have hcomplete := directory_complete wealthy_vacant hstart (by decide) hreads
  refine ⟨w,w',_,hw,hreads,?_,hcomplete.2.1,hcomplete.2.2⟩
  have hsid : s.id=1 := congrArg Prod.fst hs
  have htid : t.id=2 := congrArg Prod.fst ht
  simp [hsid,htid]

end Site
end CalcRs
