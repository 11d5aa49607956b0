import Mathlib.Data.List.Sort
import Mathlib.Data.List.Count
import Mathlib.Tactic.Common

/-! Reading an ordered list from its start: what unwanted elements in between cost a reader with a limit, and
what a reader gets to see who asks for page after page. -/
namespace CalcRs.Paging

section

variable {α : Type*} {p : α → Bool} {xs : List α} {n : ℕ}

/-- A limit on the wanted elements is the limit on all elements exactly when no unwanted one is within it. -/
theorem take_filter_eq_take : (xs.filter p).take n=xs.take n ↔ ∀ x ∈ xs.take n, p x=true := by
  constructor
  · intro h x hx
    rw [← h] at hx
    exact List.of_mem_filter (List.mem_of_mem_take hx)
  · intro h
    induction xs generalizing n with
    | nil => rfl
    | cons x xs ih =>
      cases n with
      | zero => rfl
      | succ n =>
        have hx : p x=true := h x List.mem_cons_self
        rw [List.filter_cons_of_pos hx,List.take_succ_cons,List.take_succ_cons]
        exact congrArg _ (ih fun y hy => h y (List.mem_cons_of_mem _ hy))

/-- The first elements are all wanted when enough wanted ones come before each unwanted one. -/
theorem forall_take_iff {r : α → α → Prop} [DecidableRel r] (hasymm : ∀ a b, r a b → ¬r b a) (hs : xs.Pairwise r) :
    (∀ x ∈ xs.take n, p x=true) ↔ ∀ b ∈ xs, p b=false → n ≤ xs.countP fun a => p a && decide (r a b) := by
  induction xs generalizing n with
  | nil => simp
  | cons x xs ih =>
    obtain ⟨hx,hs⟩ := List.pairwise_cons.mp hs
    cases n with
    | zero => simp
    | succ n =>
      rw [List.take_succ_cons,List.forall_mem_cons,List.forall_mem_cons]
      cases hp : p x with
      | true =>
        have hcount : ∀ b ∈ xs, (x :: xs).countP (fun a => p a && decide (r a b))=
            xs.countP (fun a => p a && decide (r a b))+1 := fun b hb =>
          List.countP_cons_of_pos (by simp [hp,hx b hb])
        simp only [true_and,reduceCtorEq,false_imp_iff]
        refine (ih hs).trans (forall₂_congr fun b hb => imp_congr_right fun _ => ?_)
        rw [hcount b hb]
        exact Nat.add_le_add_iff_right.symm
      | false =>
        have hcount : (x :: xs).countP (fun a => p a && decide (r a x))=0 := by
          refine List.countP_eq_zero.mpr fun a ha => ?_
          rcases List.mem_cons.mp ha with rfl | ha
          · simp [hp]
          · simp [hasymm x a (hx a ha)]
        refine iff_of_false (fun h => absurd h.1 (by decide)) fun h => ?_
        have := h.1 rfl
        omega

end

/-! ### Page after page -/

section

variable {α β : Type*} {fetch : Option β → List α} {pos : α → β} {n : ℕ} {xs ys : List α}
  {after : Option β}

/-- A reader asks for the page after the position of the last element so far, until a page is empty. -/
inductive Walk (fetch : Option β → List α) (pos : α → β) : Option β → List α → Prop
  | stop {after : Option β} : fetch after=[] → Walk fetch pos after []
  | next {after : Option β} {last : α} {rest : List α} : (fetch after).getLast?=some last →
      Walk fetch pos (some (pos last)) rest → Walk fetch pos after (fetch after ++ rest)

theorem Walk.unique (hx : Walk fetch pos after xs) (hy : Walk fetch pos after ys) : xs=ys := by
  induction hx generalizing ys with
  | stop h =>
    cases hy with
    | stop => rfl
    | next hlast => simp [h] at hlast
  | next hlast _ ih =>
    cases hy with
    | stop h => simp [h] at hlast
    | next hlast' hrest =>
      obtain rfl := Option.some.inj (hlast.symm.trans hlast')
      rw [ih hrest]

variable [LinearOrder β]

variable (pos xs) in
/-- The elements below the cursor. -/
def below (after : Option β) : List α := xs.filter fun x => after.all (pos x<·)

variable (pos n xs) in
/-- Elements at the same position are on the same page, when pages are full and the highest position is first. -/
def Unsplit : Prop := ∀ x ∈ xs, xs.countP (fun y => pos x<pos y)/n=(xs.countP (fun y => pos x ≤ pos y)-1)/n

theorem Unsplit.perm (h : xs.Perm ys) : Unsplit pos n xs ↔ Unsplit pos n ys := by
  unfold Unsplit
  simp only [h.countP_eq,h.mem_iff]

variable (pos) in
theorem countP_lt {x : α} (hx : x ∈ xs) :
    xs.countP (fun y => pos x<pos y)<xs.countP fun y => pos x ≤ pos y := by
  obtain ⟨front,back,rfl⟩ := List.append_of_mem hx
  have hmono : ∀ zs : List α, zs.countP (fun y => pos x<pos y) ≤ zs.countP fun y => pos x ≤ pos y := fun zs =>
    List.countP_mono_left fun y _ h => by simpa using (of_decide_eq_true h).le
  have hfront := hmono front
  have hback := hmono back
  rw [List.countP_append,List.countP_append,List.countP_cons_of_neg (by simp),List.countP_cons_of_pos (by simp)]
  omega

/-- A first page whose last position does not occur again. -/
theorem unsplit_append (hn : 0<n) (hlen : xs.length ≤ n) (hfull : ys=[] ∨ xs.length=n)
    (habove : ∀ x ∈ xs, ∀ y ∈ ys, pos y<pos x) : Unsplit pos n (xs ++ ys) ↔ Unsplit pos n ys := by
  have hfirst : ∀ x ∈ xs, (xs ++ ys).countP (fun y => pos x<pos y)/n=((xs ++ ys).countP (fun y => pos x ≤ pos y)-1)/n := by
    intro x hx
    have hlt := countP_lt pos (List.mem_append_left ys hx)
    have hbelow : ys.countP (fun y => pos x ≤ pos y)=0 :=
      List.countP_eq_zero.mpr fun y hy => by simpa using habove x hx y hy
    have hle : (xs ++ ys).countP (fun y => pos x ≤ pos y) ≤ xs.length := by
      rw [List.countP_append,hbelow]
      exact List.countP_le_length
    rw [Nat.div_eq_of_lt (by omega),Nat.div_eq_of_lt (by omega)]
  have hlater : ∀ y ∈ ys, (xs ++ ys).countP (fun z => pos y<pos z)/n=((xs ++ ys).countP (fun z => pos y ≤ pos z)-1)/n ↔
      ys.countP (fun z => pos y<pos z)/n=(ys.countP (fun z => pos y ≤ pos z)-1)/n := by
    intro y hy
    have hlt := countP_lt pos hy
    have hn' : xs.length=n := hfull.resolve_left (List.ne_nil_of_mem hy)
    have habove₁ : xs.countP (fun z => pos y<pos z)=n :=
      hn' ▸ List.countP_eq_length.mpr fun x hx => by simpa using habove x hx y hy
    have habove₂ : xs.countP (fun z => pos y ≤ pos z)=n :=
      hn' ▸ List.countP_eq_length.mpr fun x hx => by simpa using (habove x hx y hy).le
    rw [List.countP_append,List.countP_append,habove₁,habove₂,Nat.add_sub_assoc (by omega),Nat.add_div_left _ hn,
      Nat.add_div_left _ hn]
    exact Nat.succ_inj
  constructor
  · exact fun h y hy => (hlater y hy).mp (h y (List.mem_append_right xs hy))
  · intro h z hz
    rcases List.mem_append.mp hz with hz | hz
    · exact hfirst z hz
    · exact (hlater z hz).mpr (h z hz)

/-- The last position of a full first page must not occur again. -/
theorem not_unsplit_append {x y : α} (hn : 0<n) (hlen : xs.length=n) (hx : x ∈ xs) (hy : y ∈ ys) (hsame : pos x=pos y)
    (hlast : ∀ z ∈ xs, pos x ≤ pos z) (hbelow : ∀ z ∈ ys, pos z ≤ pos x) : ¬Unsplit pos n (xs ++ ys) := by
  intro h
  have hsplit := h x (List.mem_append_left ys hx)
  have hfew : (xs ++ ys).countP (fun z => pos x<pos z)<n := by
    have hnone : ys.countP (fun z => pos x<pos z)=0 := List.countP_eq_zero.mpr fun z hz => by simpa using hbelow z hz
    have hlt := countP_lt pos hx
    have hle : xs.countP (fun z => pos x ≤ pos z) ≤ xs.length := List.countP_le_length
    rw [List.countP_append,hnone]
    omega
  have hmany : n<(xs ++ ys).countP fun z => pos x ≤ pos z := by
    have hone : 0<ys.countP fun z => pos x ≤ pos z := List.countP_pos_iff.mpr ⟨y,hy,by simp [hsame]⟩
    rw [List.countP_append,List.countP_eq_length.mpr fun z hz => by simpa using hlast z hz]
    omega
  rw [Nat.div_eq_of_lt hfew] at hsplit
  have := Nat.div_pos (show n ≤ (xs ++ ys).countP (fun z => pos x ≤ pos z)-1 by omega) hn
  omega

theorem below_none : below pos xs none=xs := List.filter_eq_self.mpr fun _ _ => rfl

theorem last_le {last : α} (hs : xs.Pairwise fun a b => pos b ≤ pos a) (hlast : xs.getLast?=some last) :
    ∀ x ∈ xs, pos last ≤ pos x := by
  obtain ⟨front,rfl⟩ := List.getLast?_eq_some_iff.mp hlast
  intro x hx
  rcases List.mem_append.mp hx with hx | hx
  · exact (List.pairwise_append.mp hs).2.2 x hx last (List.mem_singleton_self _)
  · rw [List.mem_singleton.mp hx]

/-- What is below the last element of a page comes after that page. -/
theorem below_last {last : α} (hs : xs.Pairwise fun a b => pos b ≤ pos a)
    (hlast : ((below pos xs after).take n).getLast?=some last) :
    below pos xs (some (pos last))=((below pos xs after).drop n).filter fun y => pos y<pos last := by
  have hmem : last ∈ below pos xs after := List.mem_of_mem_take (List.mem_of_getLast? hlast)
  have hnarrow : below pos xs (some (pos last))=(below pos xs after).filter fun y => pos y<pos last := by
    rw [below,below,List.filter_filter]
    refine List.filter_congr fun y _ => ?_
    rw [Bool.eq_iff_iff,Bool.and_eq_true,decide_eq_true_eq,Option.all_some,decide_eq_true_eq]
    refine ⟨fun hy => ⟨hy,?_⟩,fun h => h.1⟩
    cases after with
    | none => rfl
    | some u => exact decide_eq_true (hy.trans (of_decide_eq_true (List.mem_filter.mp hmem).2))
  have hpage : ((below pos xs after).take n).filter (fun y => pos y<pos last)=[] := by
    refine List.filter_eq_nil_iff.mpr fun y hy => ?_
    simpa using last_le ((hs.filter _).sublist (List.take_sublist _ _)) hlast y hy
  conv_lhs => rw [hnarrow,← List.take_append_drop n (below pos xs after),List.filter_append,hpage,List.nil_append]

/-- A page and what is seen after it are everything exactly when nothing is lost at the border and nothing later. -/
theorem append_rest_eq_iff {front back rest : List α} {last : α} (hn : 0<n) (hlen : front.length ≤ n)
    (hfull : back=[] ∨ front.length=n) (hmem : last ∈ front) (hlast : ∀ x ∈ front, pos last ≤ pos x)
    (hback : ∀ y ∈ back, pos y ≤ pos last) (hsub : rest.Sublist (back.filter fun y => pos y<pos last))
    (hrest : rest=(back.filter fun y => pos y<pos last) ↔ Unsplit pos n (back.filter fun y => pos y<pos last)) :
    front ++ rest=front ++ back ↔ Unsplit pos n (front ++ back) := by
  rw [List.append_cancel_left_eq]
  by_cases hborder : ∀ y ∈ back, pos y<pos last
  · rw [List.filter_eq_self.mpr fun y hy => decide_eq_true (hborder y hy)] at hrest
    exact hrest.trans (unsplit_append hn hlen hfull fun x hx y hy => (hborder y hy).trans_le (hlast x hx)).symm
  · push Not at hborder
    obtain ⟨y,hy,hle⟩ := hborder
    have hlost : rest ≠ back := by
      rintro rfl
      have := List.of_mem_filter (hsub.subset hy)
      exact absurd (of_decide_eq_true this) (not_lt.mpr hle)
    exact iff_of_false hlost (not_unsplit_append hn (hfull.resolve_left (List.ne_nil_of_mem hy)) hmem hy
      (le_antisymm hle (hback y hy)) hlast hback)

/-- The pages of a list in descending order end. They are a part of the list, and all of it exactly when elements at
the same position are on the same page. -/
theorem exists_walk (hn : 0<n) (hs : xs.Pairwise fun a b => pos b ≤ pos a)
    (hfetch : ∀ after, (∀ u ∈ after, ∃ x ∈ xs, pos x=u) → fetch after=(below pos xs after).take n) (after : Option β)
    (hafter : ∀ u ∈ after, ∃ x ∈ xs, pos x=u) : ∃ result, Walk fetch pos after result ∧
      result.Sublist (below pos xs after) ∧ (result=below pos xs after ↔ Unsplit pos n (below pos xs after)) := by
  induction hlen : (below pos xs after).length using Nat.strong_induction_on generalizing after with
  | _ len ih =>
    have hpage := hfetch after hafter
    have hsorted : (below pos xs after).Pairwise fun a b => pos b ≤ pos a := hs.filter _
    have hsplit := List.take_append_drop n (below pos xs after)
    cases hlast : ((below pos xs after).take n).getLast? with
    | none =>
      have hnil : below pos xs after=[] := by
        rw [List.getLast?_eq_none_iff,List.take_eq_nil_iff] at hlast
        exact hlast.resolve_left hn.ne'
      rw [hnil,List.take_nil] at hpage
      rw [hnil]
      exact ⟨[],.stop hpage,List.Sublist.refl _,iff_of_true rfl (by simp [Unsplit])⟩
    | some last =>
      have hmem : last ∈ (below pos xs after).take n := List.mem_of_getLast? hlast
      have hnext := below_last hs hlast
      have hlater : (((below pos xs after).drop n).filter fun y => pos y<pos last).Sublist ((below pos xs after).drop n) :=
        List.filter_sublist
      have hshorter : (below pos xs (some (pos last))).length<len := by
        have hle := hlater.length_le
        have hpos := List.length_pos_of_mem (List.mem_of_mem_take hmem)
        rw [List.length_drop] at hle
        rw [hnext]
        omega
      obtain ⟨rest,hwalk,hsub,hall⟩ := ih _ hshorter (some (pos last))
        (fun u hu => ⟨last,List.mem_of_mem_filter (List.mem_of_mem_take hmem),Option.some.inj hu⟩) rfl
      rw [hnext] at hsub hall
      refine ⟨(below pos xs after).take n ++ rest,?_,?_,?_⟩
      · rw [← hpage] at hlast ⊢
        exact .next hlast hwalk
      · have happend := (List.Sublist.refl ((below pos xs after).take n)).append (hsub.trans hlater)
        rwa [hsplit] at happend
      · have hborder := hsorted
        rw [← hsplit,List.pairwise_append] at hborder
        have hall := append_rest_eq_iff hn (List.length_take_le n _) ?_ hmem
          (last_le (hsorted.sublist (List.take_sublist n _)) hlast) (fun y hy => hborder.2.2 last hmem y hy) hsub hall
        · rwa [hsplit] at hall
        · rw [List.drop_eq_nil_iff,List.length_take]
          omega

end

/-! ### Page after page of a list that changes meanwhile -/

section

variable {W α β : Type*} {moves : W → W → Prop} {fetch : W → Option β → List α} {pos : α → β}
  {xs : W → List α} {n : ℕ} {proper : W → Prop} {same : α → α → Prop} {w v : W} {after : Option β} {result : List α}

/-- A reader asks for the page after the position of the last element so far; in between the list changes. -/
inductive Tour (moves : W → W → Prop) (fetch : W → Option β → List α) (pos : α → β) : W → Option β → List α → W → Prop
  | stop {w : W} {after : Option β} : fetch w after=[] → Tour moves fetch pos w after [] w
  | next {w w' v : W} {after : Option β} {last : α} {rest : List α} : (fetch w after).getLast?=some last → moves w w' →
      Tour moves fetch pos w' (some (pos last)) rest v → Tour moves fetch pos w after (fetch w after ++ rest) v

theorem Tour.page {w' : W} {last : α} {page rest : List α} (hpage : fetch w after=page) (hlast : page.getLast?=some last)
    (hm : moves w w') (h : Tour moves fetch pos w' (some (pos last)) rest v) : Tour moves fetch pos w after (page ++ rest) v :=
  hpage ▸ .next (hpage ▸ hlast) hm h

variable [LinearOrder β]

/-- The elements above the cursor. -/
def above (pos : α → β) (xs : List α) (after : Option β) : List α := xs.filter fun x => after.all (·<pos x)

/-- Positions ascend, and no element is ever lost: it is found again as one that counts as the same. -/
structure Grows (proper : W → Prop) (moves : W → W → Prop) (xs : W → List α) (pos : α → β) (same : α → α → Prop) :
    Prop where
  sorted : ∀ w, proper w → (xs w).Pairwise fun a b => pos a<pos b
  stays : ∀ w w', proper w → moves w w' → proper w'
  kept : ∀ w w', proper w → moves w w' → ∀ x ∈ xs w, ∃ y ∈ xs w', same x y
  refl : ∀ x, same x x
  trans : ∀ x y z, same x y → same y z → same x z
  same_pos : ∀ x y, same x y → pos x=pos y

/-- What comes after a page is above its last element. -/
theorem above_last {ys : List α} {last x : α} (hs : ys.Pairwise fun a b => pos a<pos b)
    (hlast : ((above pos ys after).take n).getLast?=some last) (hx : x ∈ above pos ys after)
    (hlater : x ∉ (above pos ys after).take n) : pos last<pos x := by
  have hsplit := List.take_append_drop n (above pos ys after)
  have hsorted : ((above pos ys after).take n ++ (above pos ys after).drop n).Pairwise fun a b => pos a<pos b := by
    rw [hsplit]
    exact hs.filter _
  rw [← hsplit,List.mem_append] at hx
  exact (List.pairwise_append.mp hsorted).2.2 last (List.mem_of_getLast? hlast) x (hx.resolve_left hlater)

theorem le_last {ys : List α} {last x : α} (hs : ys.Pairwise fun a b => pos a<pos b) (hlast : ys.getLast?=some last)
    (hx : x ∈ ys) : pos x ≤ pos last := by
  obtain ⟨front,rfl⟩ := List.getLast?_eq_some_iff.mp hlast
  rcases List.mem_append.mp hx with hx | hx
  · exact ((List.pairwise_append.mp hs).2.2 x hx last (List.mem_singleton_self _)).le
  · rw [List.mem_singleton.mp hx]

/-- The reader sees the elements in order, each once. -/
theorem Tour.sorted (hg : Grows proper moves xs pos same) (hfetch : ∀ w after, proper w → fetch w after=(above pos (xs w) after).take n)
    (hp : proper w) (h : Tour moves fetch pos w after result v) :
    result.Pairwise (fun a b => pos a<pos b) ∧ ∀ y ∈ result, after.all (·<pos y) := by
  induction h with
  | stop _ => exact ⟨List.Pairwise.nil,by simp⟩
  | @next w w' v after last rest hlast hm _ ih =>
    obtain ⟨hrest,hafter⟩ := ih (hg.stays w w' hp hm)
    rw [hfetch w after hp] at hlast ⊢
    have hpage : ((above pos (xs w) after).take n).Pairwise fun a b => pos a<pos b :=
      ((hg.sorted w hp).filter _).sublist (List.take_sublist _ _)
    have hcursor : ∀ y ∈ (above pos (xs w) after).take n, after.all (·<pos y)=true := fun y hy =>
      (List.mem_filter.mp (List.mem_of_mem_take hy)).2
    have hlater : ∀ y ∈ rest, pos last<pos y := fun y hy => by simpa using hafter y hy
    refine ⟨List.pairwise_append.mpr ⟨hpage,hrest,fun x hx y hy => ?_⟩,fun y hy => ?_⟩
    · exact (le_last hpage hlast hx).trans_lt (hlater y hy)
    · rcases List.mem_append.mp hy with hseen | hseen
      · exact hcursor y hseen
      · have hbefore := hcursor last (List.mem_of_getLast? hlast)
        cases after with
        | none => rfl
        | some u => exact decide_eq_true ((of_decide_eq_true hbefore).trans (hlater y hseen))

/-- The reader sees whatever was there at the start. -/
theorem Tour.covers (hg : Grows proper moves xs pos same) (hn : 0<n)
    (hfetch : ∀ w after, proper w → fetch w after=(above pos (xs w) after).take n) (hp : proper w)
    (h : Tour moves fetch pos w after result v) : ∀ x ∈ above pos (xs w) after, ∃ y ∈ result, same x y := by
  induction h with
  | stop hnone =>
    intro x hx
    rw [hfetch _ _ hp,List.take_eq_nil_iff] at hnone
    rw [hnone.resolve_left hn.ne'] at hx
    cases hx
  | @next w w' v after last rest hlast hm _ ih =>
    intro x hx
    rw [hfetch w after hp] at hlast ⊢
    by_cases hmem : x ∈ (above pos (xs w) after).take n
    · exact ⟨x,List.mem_append_left _ hmem,hg.refl x⟩
    · obtain ⟨x',hx',hsame⟩ := hg.kept w w' hp hm x (List.mem_of_mem_filter hx)
      have hlt : pos last<pos x' := hg.same_pos x x' hsame ▸ above_last (hg.sorted w hp) hlast hx hmem
      obtain ⟨y,hy,hsame'⟩ := ih (hg.stays w w' hp hm) x' (List.mem_filter.mpr ⟨hx',by simpa using hlt⟩)
      exact ⟨y,List.mem_append_right _ hy,hg.trans x x' y hsame hsame'⟩

/-- What was there when the tour began, and whatever was seen, is there at its end. -/
theorem Tour.found (hg : Grows proper moves xs pos same) (hfetch : ∀ w after, proper w → fetch w after=(above pos (xs w) after).take n)
    (hp : proper w) (h : Tour moves fetch pos w after result v) :
    (∀ x ∈ xs w, ∃ z ∈ xs v, same x z) ∧ ∀ y ∈ result, ∃ z ∈ xs v, same y z := by
  induction h with
  | stop _ => exact ⟨fun x hx => ⟨x,hx,hg.refl x⟩,by simp⟩
  | @next w w' v after last rest _ hm _ ih =>
    obtain ⟨hstays,hseen⟩ := ih (hg.stays w w' hp hm)
    have hall : ∀ x ∈ xs w, ∃ z ∈ xs v, same x z := fun x hx => by
      obtain ⟨x',hx',hsame⟩ := hg.kept w w' hp hm x hx
      obtain ⟨z,hz,hsame'⟩ := hstays x' hx'
      exact ⟨z,hz,hg.trans x x' z hsame hsame'⟩
    refine ⟨hall,fun y hy => ?_⟩
    rcases List.mem_append.mp hy with hy | hy
    · rw [hfetch w after hp] at hy
      exact hall y (List.mem_of_mem_filter (List.mem_of_mem_take hy))
    · exact hseen y hy

end

/-! ### Serving the front of a list -/

section

variable {S α β : Type*} [LinearOrder β] {pos : α → β} {xs ys : List α} {x : α} {n k : ℕ} {p stuck : α → Bool}

/-- The elements before this one. -/
def prior (pos : α → β) (xs : List α) (x : α) : List α := xs.filter fun y => pos y<pos x

theorem mem_prior {y : α} : y ∈ prior pos xs x ↔ y ∈ xs ∧ pos y<pos x := by
  simp [prior]

theorem nodup_of_ascending (hs : xs.Pairwise fun a b => pos a<pos b) : xs.Nodup :=
  hs.imp fun h he => (he ▸ h).ne rfl

/-- An element that is not among the first has these before it. -/
theorem take_subset_prior (hs : xs.Pairwise fun a b => pos a<pos b) (hx : x ∈ xs) (hlate : x ∉ xs.take n) :
    (xs.take n).length=n ∧ xs.take n ⊆ prior pos xs x := by
  have hsplit := List.take_append_drop n xs
  have hdrop : x ∈ xs.drop n := by
    rw [← hsplit] at hx
    exact (List.mem_append.mp hx).resolve_left hlate
  rw [← hsplit] at hs
  refine ⟨?_,fun y hy => mem_prior.mpr ⟨List.mem_of_mem_take hy,(List.pairwise_append.mp hs).2.2 y hy x hdrop⟩⟩
  have := List.length_pos_of_mem hdrop
  rw [List.length_drop] at this
  rw [List.length_take]
  omega

theorem countP_le_of_subset (hys : ys.Nodup) (hsub : ys ⊆ xs) : ys.countP p ≤ xs.countP p := by
  rw [List.countP_eq_length_filter,List.countP_eq_length_filter]
  refine (List.subperm_of_subset (hys.filter _) fun y hy => ?_).length_le
  obtain ⟨hy,hp⟩ := List.mem_filter.mp hy
  exact List.mem_filter.mpr ⟨hsub hy,hp⟩

/-- When the wanted ones among the first leave and an element still waits, fewer are before it. -/
theorem prior_shrinks (hxs : xs.Pairwise fun a b => pos a<pos b) (hys : ys.Pairwise fun a b => pos a<pos b)
    (hsub : ys ⊆ xs) (hserved : ∀ y ∈ xs.take n, p y=true → y ∉ ys) (hx : x ∈ ys) (hp : p x=true) :
    (prior pos ys x).length+(n-(prior pos xs x).countP fun y => !p y) ≤ (prior pos xs x).length := by
  obtain ⟨hfull,hfront⟩ := take_subset_prior (n := n) hxs (hsub hx) fun hmem => hserved x hmem hp hx
  have hnodup := nodup_of_ascending hxs
  have htake : (xs.take n).Nodup := hnodup.sublist (List.take_sublist _ _)
  have hblocked := countP_le_of_subset (p := fun y => !p y) htake hfront
  have hsplit := List.length_eq_countP_add_countP p (l := xs.take n)
  -- the ones that left and the ones that are still before it
  have hboth : (prior pos ys x ++ (xs.take n).filter p).Nodup := by
    refine ((nodup_of_ascending hys).filter _).append (htake.filter _) fun y hy hy' => ?_
    obtain ⟨hmem,hpy⟩ := List.mem_filter.mp hy'
    exact hserved y hmem hpy (mem_prior.mp hy).1
  have hle : (prior pos ys x ++ (xs.take n).filter p).length ≤ (prior pos xs x).length := by
    refine (List.subperm_of_subset hboth fun y hy => ?_).length_le
    rcases List.mem_append.mp hy with hy | hy
    · obtain ⟨hmem,hlt⟩ := mem_prior.mp hy
      exact mem_prior.mpr ⟨hsub hmem,hlt⟩
    · exact hfront (List.mem_of_mem_filter hy)
  rw [List.length_append,← List.countP_eq_length_filter] at hle
  simp only [Bool.not_eq_true,Bool.decide_eq_false] at hsplit
  omega

/-- An element with enough before it is not among the first. -/
theorem not_mem_take (hs : xs.Pairwise fun a b => pos a<pos b) (hn : n ≤ (prior pos xs x).length) : x ∉ xs.take n := by
  intro hx
  have hsplit := List.take_append_drop n xs
  have hborder := hs
  rw [← hsplit] at hborder
  have hsub : prior pos xs x ⊆ (xs.take n).filter fun y => pos y<pos x := by
    intro y hy
    obtain ⟨hmem,hlt⟩ := mem_prior.mp hy
    rw [← hsplit] at hmem
    refine List.mem_filter.mpr ⟨(List.mem_append.mp hmem).resolve_right fun hdrop => ?_,decide_eq_true hlt⟩
    exact absurd ((List.pairwise_append.mp hborder).2.2 x hx y hdrop) hlt.asymm
  have hle := (List.subperm_of_subset ((nodup_of_ascending hs).filter _) hsub).length_le
  have hlt : ((xs.take n).filter fun y => pos y<pos x).length<(xs.take n).length :=
    List.length_filter_lt_length_iff_exists.mpr ⟨x,hx,by simp⟩
  have := List.length_take_le n xs
  change (prior pos xs x).length ≤ _ at hle
  omega

variable {proper : S → Prop} {list : S → List α} {serve quiet : S → S → Prop} {s s' : S}

/-- Rounds of service, and other steps in between. -/
inductive Rounds (serve quiet : S → S → Prop) (s : S) : ℕ → S → Prop
  | start : Rounds serve quiet s 0 s
  | round {k : ℕ} {s' s'' : S} : Rounds serve quiet s k s' → serve s' s'' → Rounds serve quiet s (k+1) s''
  | other {k : ℕ} {s' s'' : S} : Rounds serve quiet s k s' → quiet s' s'' → Rounds serve quiet s k s''

/-- The list stays in order. -/
structure Ordered (proper : S → Prop) (list : S → List α) (pos : α → β) (serve quiet : S → S → Prop) : Prop where
  sorted : ∀ s, proper s → (list s).Pairwise fun a b => pos a<pos b
  stays : ∀ s s', proper s → serve s s' ∨ quiet s s' → proper s'

theorem Ordered.rounds (ho : Ordered proper list pos serve quiet) (hp : proper s) (h : Rounds serve quiet s k s') :
    proper s' := by
  induction h with
  | start => exact hp
  | round _ hserve ih => exact ho.stays _ _ ih (.inl hserve)
  | other _ hquiet ih => exact ho.stays _ _ ih (.inr hquiet)

/-- Nothing is added, and every round takes the wanted ones among the first: whoever still waits has moved up. -/
theorem Rounds.moves_up (ho : Ordered proper list pos serve quiet)
    (hsub : ∀ s s', proper s → serve s s' ∨ quiet s s' → list s' ⊆ list s)
    (hserved : ∀ s s', proper s → serve s s' → ∀ y ∈ (list s).take n, p y=true → y ∉ list s') (hp : proper s)
    (h : Rounds serve quiet s k s') (hx : x ∈ list s') (hwanted : p x=true) :
    x ∈ list s ∧ prior pos (list s') x ⊆ prior pos (list s) x ∧
      (prior pos (list s') x).length+k*(n-(prior pos (list s) x).countP fun y => !p y) ≤ (prior pos (list s) x).length := by
  induction h with
  | start => exact ⟨hx,List.Subset.refl _,by simp⟩
  | @round k s' s'' hrounds hserve ih =>
    have hp' := ho.rounds hp hrounds
    have hstep := hsub _ _ hp' (.inl hserve)
    obtain ⟨hmem,hfront,hle⟩ := ih (hstep hx)
    have hsorted := ho.sorted _ hp'
    have hmoved := prior_shrinks hsorted (ho.sorted _ (ho.stays _ _ hp' (.inl hserve))) hstep (hserved _ _ hp' hserve)
      hx hwanted
    have hblocked := countP_le_of_subset (p := fun y => !p y) ((nodup_of_ascending hsorted).filter _) hfront
    have hsame : (prior pos (list s'') x) ⊆ prior pos (list s') x := fun y hy =>
      mem_prior.mpr ⟨hstep (mem_prior.mp hy).1,(mem_prior.mp hy).2⟩
    refine ⟨hmem,List.Subset.trans hsame hfront,?_⟩
    change (prior pos (list s') x).countP _ ≤ _ at hblocked
    rw [Nat.add_mul,Nat.one_mul]
    omega
  | @other k s' s'' hrounds hquiet ih =>
    have hp' := ho.rounds hp hrounds
    have hstep := hsub _ _ hp' (.inr hquiet)
    obtain ⟨hmem,hfront,hle⟩ := ih (hstep hx)
    have hsame : (prior pos (list s'') x) ⊆ prior pos (list s') x := fun y hy =>
      mem_prior.mpr ⟨hstep (mem_prior.mp hy).1,(mem_prior.mp hy).2⟩
    have hnodup := nodup_of_ascending (ho.sorted _ (ho.stays _ _ hp' (.inr hquiet)))
    have hshort := (List.subperm_of_subset (hnodup.filter _) hsame).length_le
    change (prior pos (list s'') x).length ≤ _ at hshort
    exact ⟨hmem,List.Subset.trans hsame hfront,by omega⟩

/-- Who is not among the first is not served: behind enough that are stuck one waits forever. -/
theorem Rounds.stays_behind (ho : Ordered proper list pos serve quiet)
    (hkept : ∀ s s', proper s → serve s s' → ∀ y ∈ list s, y ∉ (list s).take n ∨ stuck y=true → y ∈ list s')
    (hquiet : ∀ s s', proper s → quiet s s' → list s ⊆ list s') (hp : proper s) (h : Rounds serve quiet s k s')
    (hx : x ∈ list s) (hn : n ≤ (prior pos (list s) x).countP stuck) :
    x ∈ list s' ∧ n ≤ (prior pos (list s') x).countP stuck := by
  have hmore : ∀ s' s'', proper s' → proper s'' → (∀ y ∈ list s', stuck y=true → y ∈ list s'') →
      n ≤ (prior pos (list s') x).countP stuck → n ≤ (prior pos (list s'') x).countP stuck := by
    intro s' s'' hp' hp'' hstuck hle
    refine hle.trans ?_
    rw [List.countP_eq_length_filter,List.countP_eq_length_filter]
    have hnodup := ((nodup_of_ascending (ho.sorted _ hp')).filter fun y => decide (pos y<pos x)).filter stuck
    refine (List.subperm_of_subset hnodup fun y hy => ?_).length_le
    obtain ⟨hprior,hy⟩ := List.mem_filter.mp hy
    obtain ⟨hmem,hlt⟩ := mem_prior.mp hprior
    exact List.mem_filter.mpr ⟨mem_prior.mpr ⟨hstuck y hmem hy,hlt⟩,hy⟩
  induction h with
  | start => exact ⟨hx,hn⟩
  | @round k s' s'' hrounds hserve ih =>
    obtain ⟨hmem,hle⟩ := ih
    have hp' := ho.rounds hp hrounds
    have hkeep := hkept _ _ hp' hserve
    have hlate := not_mem_take (ho.sorted _ hp') (hle.trans List.countP_le_length)
    exact ⟨hkeep x hmem (.inl hlate),
      hmore _ _ hp' (ho.stays _ _ hp' (.inl hserve)) (fun y hy hs => hkeep y hy (.inr hs)) hle⟩
  | @other k s' s'' hrounds hq ih =>
    obtain ⟨hmem,hle⟩ := ih
    have hp' := ho.rounds hp hrounds
    have hkeep := hquiet _ _ hp' hq
    exact ⟨hkeep hmem,hmore _ _ hp' (ho.stays _ _ hp' (.inr hq)) (fun y hy _ => hkeep hy) hle⟩

end

end CalcRs.Paging
