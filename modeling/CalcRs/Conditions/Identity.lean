import CalcRs.Conditions.Batches
import CalcRs.Foundation.Lists

/-! What the id of a trigger is hashed from. The sender, the kind of condition and its number can be read back from
the bytes; the message and the address of the contract are written without anything between them. -/
namespace CalcRs

/-- The list that `toList` builds, from the position up to which it has read the bytes. -/
theorem toList_loop_of_add {bytes : ByteArray} {left i : ℕ} {read : List UInt8} (h : i+left=bytes.size) :
    ByteArray.toList.loop bytes i read=read.reverse ++ bytes.data.toList.drop i := by
  induction left generalizing i read with
  | zero =>
    have hall : bytes.data.toList.length ≤ i := Nat.le_of_eq h.symm
    rw [ByteArray.toList.loop,if_neg (by omega),List.drop_eq_nil_of_le hall,List.append_nil]
  | succ left ih =>
    have hlt : i<bytes.size := by omega
    have hbyte : bytes.get! i=bytes.data[i] := getElem!_pos bytes.data i hlt
    rw [ByteArray.toList.loop,if_pos hlt,ih (by omega),List.reverse_cons,List.append_assoc,hbyte]
    exact congrArg _ (List.drop_eq_getElem_cons hlt).symm

theorem asBytes_inj {s t : String} : asBytes s=asBytes t ↔ s=t := by
  have hdata : ∀ s, asBytes s=s.toByteArray.data.toList := fun s => toList_loop_of_add (Nat.zero_add _)
  rw [hdata,hdata,Array.toList_inj,← ByteArray.ext_iff]
  exact String.toByteArray_inj

theorem littleEndian_length (k n : ℕ) : (littleEndian k n).length=k := by simp [littleEndian]

theorem littleEndian_succ (k n : ℕ) : littleEndian (k+1) n=UInt8.ofNat n :: littleEndian k (n/256) := by
  rw [littleEndian,littleEndian,List.range_succ_eq_map,List.map_cons,List.map_map,Nat.pow_zero,Nat.div_one]
  refine congrArg _ (List.map_congr_left fun i _ => ?_)
  rw [Function.comp_apply,Nat.div_div_eq_div_mul,Nat.succ_eq_add_one,Nat.pow_succ']

theorem littleEndian_inj {k n m : ℕ} (hn : n<256^k) (hm : m<256^k) : littleEndian k n=littleEndian k m ↔ n=m := by
  refine ⟨fun h => ?_,congrArg _⟩
  induction k generalizing n m with
  | zero => omega
  | succ k ih =>
    rw [littleEndian_succ,littleEndian_succ] at h
    obtain ⟨hlow,hhigh⟩ := List.cons.inj h
    rw [Nat.pow_succ'] at hn hm
    have hlow : n%2^8=m%2^8 := by rw [← UInt8.toNat_ofNat',← UInt8.toNat_ofNat',hlow]
    have hhigh := ih (Nat.div_lt_of_lt_mul hn) (Nat.div_lt_of_lt_mul hm) hhigh
    omega

/-- An address without control bytes. -/
def Addr.Printable (address : Addr) : Prop := ∀ byte ∈ asBytes address, 32 ≤ byte

namespace Condition

/-- A block or a time in 64 bits. -/
def Timed : Condition → Prop
  | .timestampElapsed timestamp => timestamp.nanos<2^64
  | .blocksCompleted height => height<2^64
  | _ => False

/-- The same block, or the same second. -/
def SameTime : Condition → Condition → Prop
  | .timestampElapsed timestamp,.timestampElapsed timestamp' => timestamp.seconds=timestamp'.seconds
  | .blocksCompleted height,.blocksCompleted height' => height=height'
  | _,_ => False

theorem seconds_lt {t : Timestamp} (h : t.nanos<2^64) : t.seconds<256^8 := (Nat.div_le_self _ _).trans_lt h

end Condition

namespace CreateTriggerMsg

section

variable {rest rest' : List UInt8} {self other : CreateTriggerMsg}

theorem tagged_append_inj {tag tag' : UInt8} {n n' : ℕ} (hn : n<256^8) (hn' : n'<256^8) :
    tag :: littleEndian 8 n ++ rest=tag' :: littleEndian 8 n' ++ rest' ↔ (tag=tag' ∧ n=n') ∧ rest=rest' := by
  rw [List.cons_append,List.cons_append,List.cons.injEq,
    List.append_eq_append_iff_of_size_eq_left (by rw [littleEndian_length,littleEndian_length]),littleEndian_inj hn hn',
    and_assoc]

/-- The message goes on where the other one has ended, into what is the beginning of the other's contract address. -/
def RunsInto (self other : CreateTriggerMsg) : Prop := ∃ part, part≠[] ∧ self.msg=other.msg ++ part ∧
  asBytes other.contractAddress=part ++ asBytes self.contractAddress

theorem tail_eq_iff (self other : CreateTriggerMsg) :
    self.msg ++ asBytes self.contractAddress=other.msg ++ asBytes other.contractAddress ↔
      (self.msg=other.msg ∧ self.contractAddress=other.contractAddress) ∨ self.RunsInto other ∨ other.RunsInto self := by
  rw [List.append_eq_append_iff]
  constructor
  · rintro (⟨part,hmsg,haddress⟩ | ⟨part,hmsg,haddress⟩)
    · by_cases hpart : part=[]
      · rw [hpart,List.append_nil] at hmsg
        rw [hpart,List.nil_append,asBytes_inj] at haddress
        exact .inl ⟨hmsg.symm,haddress⟩
      · exact .inr (.inr ⟨part,hpart,hmsg,haddress⟩)
    · by_cases hpart : part=[]
      · rw [hpart,List.append_nil] at hmsg
        rw [hpart,List.nil_append,asBytes_inj] at haddress
        exact .inl ⟨hmsg,haddress.symm⟩
      · exact .inr (.inl ⟨part,hpart,hmsg,haddress⟩)
  · rintro (⟨hmsg,haddress⟩ | ⟨part,_,hmsg,haddress⟩ | ⟨part,_,hmsg,haddress⟩)
    · exact .inl ⟨[],by rw [hmsg,List.append_nil],by rw [haddress,List.nil_append]⟩
    · exact .inr ⟨part,hmsg,haddress⟩
    · exact .inl ⟨part,hmsg,haddress⟩

theorem RunsInto.msg_ne (h : self.RunsInto other) : self.msg≠other.msg := by
  obtain ⟨part,hpart,hmsg,_⟩ := h
  rw [hmsg]
  exact fun he => hpart (List.append_right_eq_self.mp he)

variable [Crates] {owner owner' : Addr} {c c' : Condition}

/-- The bytes that `id` hashes. -/
def written (self : CreateTriggerMsg) (owner : Addr) : Outcome (List UInt8) := do
  let condition ← conditionBytes self.condition
  return asBytes owner ++ condition ++ self.msg ++ asBytes self.contractAddress

theorem id_eq_hash (self : CreateTriggerMsg) (owner : Addr) : self.id owner=Crates.hash <$> self.written owner := by
  rw [id,written,Except.map_bind]
  rfl

/-- A tag below all printable bytes, and a number of eight bytes. -/
theorem conditionBytes_timed (h : c.Timed) : ∃ tag n, conditionBytes c=.ok (tag :: littleEndian 8 n) ∧ tag<32 := by
  cases c with
  | timestampElapsed t => exact ⟨0,_,rfl,by decide⟩
  | blocksCompleted n => exact ⟨1,_,rfl,by decide⟩
  | _ => exact h.elim

/-- The condition can be read back from its bytes, whatever follows them. -/
theorem conditionBytes_append_inj {bytes bytes' : List UInt8} (hc : c.Timed) (hc' : c'.Timed)
    (h : conditionBytes c=.ok bytes) (h' : conditionBytes c'=.ok bytes') :
    bytes ++ rest=bytes' ++ rest' ↔ c.SameTime c' ∧ rest=rest' := by
  cases c with
  | timestampElapsed t =>
    obtain rfl := Except.ok.inj h
    cases c' with
    | timestampElapsed t' =>
      obtain rfl := Except.ok.inj h'
      rw [tagged_append_inj (Condition.seconds_lt hc) (Condition.seconds_lt hc'),Condition.SameTime,eq_self,true_and]
    | blocksCompleted n =>
      obtain rfl := Except.ok.inj h'
      simp [Condition.SameTime]
    | _ => exact hc'.elim
  | blocksCompleted n =>
    obtain rfl := Except.ok.inj h
    cases c' with
    | timestampElapsed t' =>
      obtain rfl := Except.ok.inj h'
      simp [Condition.SameTime]
    | blocksCompleted n' =>
      obtain rfl := Except.ok.inj h'
      rw [tagged_append_inj hc hc',Condition.SameTime,eq_self,true_and]
    | _ => exact hc'.elim
  | _ => exact hc.elim

/-- The same call of the same sender. -/
structure SameCall (owner : Addr) (call : CreateTriggerMsg) (owner' : Addr) (call' : CreateTriggerMsg) : Prop where
  sender : owner=owner'
  condition : call.condition.SameTime call'.condition
  msg : call.msg=call'.msg
  contractAddress : call.contractAddress=call'.contractAddress

/-- The sender and the condition are the same where the bytes are, and what is left over agrees as a whole. -/
theorem written_eq_iff (howner : owner=owner' ∨ Addr.Printable owner ∧ Addr.Printable owner') (hc : self.condition.Timed)
    (hc' : other.condition.Timed) : self.written owner=other.written owner' ↔
      owner=owner' ∧ self.condition.SameTime other.condition ∧
        ((self.msg=other.msg ∧ self.contractAddress=other.contractAddress) ∨ self.RunsInto other ∨ other.RunsInto self) := by
  obtain ⟨tag,n,h,htag⟩ := conditionBytes_timed hc
  obtain ⟨tag',n',h',htag'⟩ := conditionBytes_timed hc'
  rw [← tail_eq_iff,← conditionBytes_append_inj hc hc' h h',written,written,h,h',Except.ok_bind,Except.ok_bind,
    Except.pure_eq_ok,Except.pure_eq_ok,Except.ok.injEq]
  simp only [List.append_assoc]
  rcases howner with rfl | ⟨hp,hp'⟩
  · rw [List.append_cancel_left_eq,eq_self,true_and]
  · rw [List.cons_append,List.cons_append,← asBytes_inj]
    refine @append_cons_inj_of_all _ (fun byte => decide (32 ≤ byte)) _ _ _ _ _ _ ?_ ?_ ?_ ?_
    · exact fun byte hbyte => decide_eq_true (hp byte hbyte)
    · exact fun byte hbyte => decide_eq_true (hp' byte hbyte)
    · simpa using htag
    · simpa using htag'

/-- The same bytes are written for the same call only, unless one message runs into the other's contract address. -/
theorem written_determines_iff (howner : owner=owner' ∨ Addr.Printable owner ∧ Addr.Printable owner')
    (hc : self.condition.Timed) (hc' : other.condition.Timed) :
    (self.written owner=other.written owner' → SameCall owner self owner' other) ↔
      ¬(owner=owner' ∧ self.condition.SameTime other.condition ∧ (self.RunsInto other ∨ other.RunsInto self)) := by
  rw [written_eq_iff howner hc hc']
  constructor
  · rintro h ⟨hsame,htime,hruns⟩
    have hmsg := (h ⟨hsame,htime,.inr hruns⟩).msg
    rcases hruns with hruns | hruns
    · exact hruns.msg_ne hmsg
    · exact hruns.msg_ne hmsg.symm
  · rintro h ⟨hsame,htime,⟨hmsg,haddress⟩ | hruns⟩
    · exact ⟨hsame,htime,hmsg,haddress⟩
    · exact absurd ⟨hsame,htime,hruns⟩ h

end

end CreateTriggerMsg

namespace SchedulerContract

section

variable [Crates] {info : MessageInfo} {triggers triggers' : Table ℕ Trigger} {messages : List SubMsg}

/-- A trigger is stored under the id of the message that it was created with. -/
theorem Reachable.hashed (h : Reachable triggers) {k : ℕ} {t : Trigger} (ht : triggers.get? k=some t) :
    t.command.id t.owner=.ok k := by
  induction h generalizing k t with
  | instantiate => cases ht
  | @call deps env info msg triggers triggers' messages hbefore hcall ih =>
    cases msg with
    | create command =>
      obtain ⟨new,_,hid,hget,howner,hcommand⟩ := create_saves hbefore.stored.keyed hcall
      rcases hget k t ht with ⟨rfl,rfl⟩ | hold
      · rwa [howner,hcommand]
      · exact ih hold
    | execute ids => exact ih (execute_keeps hbefore.stored.keyed hcall ht)

theorem create_owner {command : CreateTriggerMsg} {id : ℕ} {existing : Trigger}
    (h : create info triggers command=.ok (triggers',messages)) (hid : command.id info.sender=.ok id)
    (hget : triggers.get? id=some existing) : existing.owner=info.sender := by
  simp only [create,genericErr,Except.ite_error_eq_ok] at h
  obtain ⟨_,_,h⟩ := Except.bind_eq_ok.mp h.2
  rw [hid,Except.ok_bind] at h
  obtain ⟨_,hremove,_⟩ := Except.bind_eq_ok.mp h
  rw [removeExisting,hget] at hremove
  simp only [genericErr,Except.ite_error_eq_ok,not_not] at hremove
  exact hremove.1.symm

/-- Two timed messages of printable senders are hashed alike only as the same call, up to messages that run into each
other's contract address; and so a creation replaces, collisions of the hash apart, only the trigger of the same call. -/
theorem id_names_call_iff :
    (∀ (self other : CreateTriggerMsg) (owner owner' : Addr), Addr.Printable owner → Addr.Printable owner' →
      self.condition.Timed → other.condition.Timed →
        ((self.written owner=other.written owner' → CreateTriggerMsg.SameCall owner self owner' other) ↔
          ¬(owner=owner' ∧ self.condition.SameTime other.condition ∧ (self.RunsInto other ∨ other.RunsInto self)))) ∧
    ∀ (triggers triggers' : Table ℕ Trigger) (info : MessageInfo) (command : CreateTriggerMsg) (messages : List SubMsg)
      (id : ℕ) (existing : Trigger), Reachable triggers → create info triggers command=.ok (triggers',messages) →
      command.id info.sender=.ok id → triggers.get? id=some existing → existing.condition.Timed → command.condition.Timed →
      (∀ bytes bytes', existing.command.written existing.owner=.ok bytes → command.written info.sender=.ok bytes' →
        Crates.hash bytes=Crates.hash bytes' → bytes=bytes') →
      (CreateTriggerMsg.SameCall existing.owner existing.command info.sender command ↔
        ¬(existing.command.RunsInto command ∨ command.RunsInto existing.command)) := by
  refine ⟨fun self other owner owner' ho ho' hc hc' => CreateTriggerMsg.written_determines_iff (.inr ⟨ho,ho'⟩) hc hc',?_⟩
  intro triggers triggers' info command messages id existing hreach hcreate hid hget hc hc' hhash
  have howner := create_owner hcreate hid hget
  have hc : existing.command.condition.Timed := hc
  have hold := hreach.hashed hget
  rw [CreateTriggerMsg.id_eq_hash] at hid hold
  obtain ⟨bytes,hbytes,hold⟩ := Except.map_eq_ok.mp hold
  obtain ⟨bytes',hbytes',hid⟩ := Except.map_eq_ok.mp hid
  have hsame : existing.command.written existing.owner=command.written info.sender := by
    rw [hbytes,hbytes',hhash bytes bytes' hbytes hbytes' (hold.trans hid.symm)]
  have hparts := (CreateTriggerMsg.written_eq_iff (.inl howner) hc hc').mp hsame
  have hiff := CreateTriggerMsg.written_determines_iff (.inl howner) hc hc'
  rw [imp_iff_right hsame] at hiff
  rw [hiff,and_iff_right howner,and_iff_right hparts.2.1]

end

section

attribute [local instance] Crates.plain

/-- The message runs into the address of the clock. -/
def overrun : CreateTriggerMsg := ⟨.blocksCompleted 5,asBytes "pingc","lock",["keeper"],none⟩

def overrunTrigger : Trigger := ⟨23,"alice",.blocksCompleted 5,asBytes "pingc","lock",["keeper"],[],none⟩

theorem reached_stored : Reachable (Table.empty.insert 23 reachedTrigger) := by
  have hcreated : execute Deps.silent (Schedule.atBlock 1) ⟨"alice",[⟨5,"rune"⟩]⟩ Table.empty (.create reached)=
      .ok (Table.empty.insert 23 reachedTrigger,[]) := by decide +kernel
  exact .call .instantiate hcreated

/-- Whatever the hash, a call of another contract with another message has the id of the pending trigger; it replaces
that and refunds it. -/
theorem message_runs_into_address : reached.written "alice"=overrun.written "alice" ∧
    Reachable (Table.empty.insert 23 reachedTrigger) ∧
    create ⟨"alice",[]⟩ (Table.empty.insert 23 reachedTrigger) overrun=
      .ok (Table.empty.insert 23 overrunTrigger,[⟨.bankSend "alice" [⟨5,"rune"⟩],.never,0⟩]) ∧
    ¬CreateTriggerMsg.SameCall "alice" reached "alice" overrun := by
  refine ⟨by decide +kernel,reached_stored,by decide +kernel,fun h => ?_⟩
  exact absurd h.contractAddress (by decide)

/-- The same call replaces its own trigger. -/
theorem id_names_call_iff_again : CreateTriggerMsg.SameCall "alice" reached "alice" reached := by
  have hcreate : create ⟨"alice",[]⟩ (Table.empty.insert 23 reachedTrigger) reached=
      .ok (Table.empty.insert 23 { reachedTrigger with executionRebate := [] },
        [⟨.bankSend "alice" [⟨5,"rune"⟩],.never,0⟩]) := by decide +kernel
  have hid : reached.id "alice"=.ok 23 := by decide +kernel
  have hget : (Table.empty.insert 23 reachedTrigger).get? 23=some reachedTrigger := by decide +kernel
  have hruns : ¬(reached.RunsInto reached ∨ reached.RunsInto reached) := by
    rintro (h | h) <;> exact h.msg_ne rfl
  have htimed : reached.condition.Timed := show 5<2^64 by decide
  exact (id_names_call_iff.2 _ _ _ _ _ _ reachedTrigger reached_stored hcreate hid hget htimed htimed
    fun bytes bytes' h h' _ => Except.ok.inj (h.symm.trans h')).mpr hruns

end

end SchedulerContract
end CalcRs
