import CalcRs.Conditions.Identity
import CalcRs.Foundation.Wire
import CalcRs.Model.Deposit

/-! What the network reads in the bytes of a deposit. -/
namespace CalcRs

open Wire

/-! ### The reader -/

structure Asset where
  chain : String
  symbol : String
  ticker : String
  synth : Bool
  trade : Bool
  secured : Bool
  deriving DecidableEq

/-- A deposit as the network reads it. -/
structure NetworkDeposit where
  coins : List (Asset × ℕ)
  memo : String
  signer : Binary
  deriving DecidableEq

def readText (bytes : Binary) : Option String := String.fromUTF8? ⟨bytes.toArray⟩

def readNumber (s : String) : Option ℕ :=
  if s.toList≠[] ∧ s.toList.all Char.isDigit then some (Nat.ofDigitChars 10 s.toList 0) else none

def readAsset (bytes : Binary) : Option Asset := do
  let fields ← Wire.read bytes
  let chain ← readText (bytesAt 1 fields)
  let symbol ← readText (bytesAt 2 fields)
  let ticker ← readText (bytesAt 3 fields)
  return ⟨chain,symbol,ticker,flagAt 4 fields,flagAt 5 fields,flagAt 6 fields⟩

def readCoin (bytes : Binary) : Option (Asset × ℕ) := do
  let fields ← Wire.read bytes
  let asset ← readAsset (bytesAt 1 fields)
  let text ← readText (bytesAt 2 fields)
  let amount ← readNumber text
  return (asset,amount)

def readDeposit (bytes : Binary) : Option NetworkDeposit := do
  let fields ← Wire.read bytes
  let coins ← (repeatedAt 1 fields).mapM readCoin
  let memo ← readText (bytesAt 2 fields)
  return ⟨coins,memo,bytesAt 3 fields⟩

theorem readText_asBytes (s : String) : readText (CalcRs.asBytes s)=some s := by
  have hbytes : (⟨(CalcRs.asBytes s).toArray⟩ : ByteArray)=s.toByteArray := by
    have hdata : CalcRs.asBytes s=s.toByteArray.data.toList := toList_loop_of_add (Nat.zero_add _)
    rw [hdata,Array.toArray_toList]
  rw [readText,hbytes,String.fromUTF8?,dif_pos s.isValidUTF8]
  rfl

theorem readNumber_toString (n : ℕ) : readNumber (toString n)=some n := by
  have hchars : (toString n).toList=Nat.toDigits 10 n := by rw [Nat.toString_eq_ofList_toDigits,String.toList_ofList]
  have hdigits : (Nat.toDigits 10 n).all Char.isDigit=true :=
    List.all_eq_true.mpr fun c hc => Nat.isDigit_of_mem_toDigits (by decide) (by decide) hc
  rw [readNumber,hchars,if_pos ⟨Nat.toDigits_ne_nil,hdigits⟩,Nat.ofDigitChars_ten_toDigits]

/-! ### What is written -/

def assetFields (asset : Asset) : List Field :=
  text 1 (CalcRs.asBytes asset.chain) ++ (text 2 (CalcRs.asBytes asset.symbol) ++
    (text 3 (CalcRs.asBytes asset.ticker) ++ (flag 4 asset.synth ++ (flag 5 asset.trade ++ flag 6 asset.secured))))

def coinFields (coin : Asset × ℕ) : List Field :=
  (1,.bytes (Wire.write (assetFields coin.1))) :: text 2 (CalcRs.asBytes (toString coin.2))

def NetworkDeposit.fields (deposit : NetworkDeposit) : List Field :=
  (deposit.coins.map fun coin => (1,.bytes (Wire.write (coinFields coin)))) ++
    (text 2 (CalcRs.asBytes deposit.memo) ++ text 3 deposit.signer)

theorem readAsset_write (asset : Asset) : readAsset (Wire.write (assetFields asset))=some asset := by
  have hchain : bytesAt 1 (assetFields asset)=CalcRs.asBytes asset.chain := bytesAt_of_values (by
    simp [assetFields,values_text_of_ne,values_flag_of_ne])
  have hsymbol : bytesAt 2 (assetFields asset)=CalcRs.asBytes asset.symbol := bytesAt_of_values (by
    simp [assetFields,values_text_of_ne,values_flag_of_ne])
  have hticker : bytesAt 3 (assetFields asset)=CalcRs.asBytes asset.ticker := bytesAt_of_values (by
    simp [assetFields,values_text_of_ne,values_flag_of_ne])
  have hsynth : flagAt 4 (assetFields asset)=asset.synth := flagAt_of_values (by
    simp [assetFields,values_text_of_ne,values_flag_of_ne])
  have htrade : flagAt 5 (assetFields asset)=asset.trade := flagAt_of_values (by
    simp [assetFields,values_text_of_ne,values_flag_of_ne])
  have hsecured : flagAt 6 (assetFields asset)=asset.secured := flagAt_of_values (by
    simp [assetFields,values_text_of_ne,values_flag_of_ne])
  simp [readAsset,hchain,hsymbol,hticker,hsynth,htrade,hsecured,readText_asBytes]

theorem readCoin_write (coin : Asset × ℕ) : readCoin (Wire.write (coinFields coin))=some coin := by
  have hasset : bytesAt 1 (coinFields coin)=Wire.write (assetFields coin.1) := by
    simp [bytesAt,coinFields,values_text_of_ne,Value.asBytes]
  have hamount : bytesAt 2 (coinFields coin)=CalcRs.asBytes (toString coin.2) := bytesAt_of_values (by simp [coinFields])
  simp only [readCoin,read_write,Option.bind_eq_bind,Option.bind_some,hasset,readAsset_write,hamount,readText_asBytes,
    readNumber_toString]
  rfl

/-- A deposit that was written is read back. -/
theorem readDeposit_write (deposit : NetworkDeposit) : readDeposit (Wire.write deposit.fields)=some deposit := by
  have hcoins : repeatedAt 1 deposit.fields=deposit.coins.map fun coin => Wire.write (coinFields coin) := by
    simp [repeatedAt,NetworkDeposit.fields,values_repeated,values_text_of_ne,Value.asBytes]
  have hmemo : bytesAt 2 deposit.fields=CalcRs.asBytes deposit.memo := bytesAt_of_values (by
    simp [NetworkDeposit.fields,values_repeated_of_ne,values_text_of_ne])
  have hsigner : bytesAt 3 deposit.fields=deposit.signer := bytesAt_of_values (by
    simp [NetworkDeposit.fields,values_repeated_of_ne,values_text_of_ne])
  have hread := mapM_of_read (fun coin => Wire.write (coinFields coin)) readCoin_write deposit.coins
  simp only [readDeposit,read_write,Option.bind_eq_bind,Option.bind_some,hcoins,hread,hmemo,readText_asBytes,hsigner]
  rfl

/-! ### The crate -/

section

open DepositCrates hiding asBytes

/-- The crate appends fields in the wire format. -/
structure DepositCrates.Encodes [DepositCrates] : Prop where
  new : DepositCrates.asBytes (new : Anybuf)=[]
  string : ∀ (buf : Anybuf) k s, DepositCrates.asBytes (appendString buf k s)=
    DepositCrates.asBytes buf ++ Wire.write (text k (CalcRs.asBytes s))
  bool : ∀ (buf : Anybuf) k value, DepositCrates.asBytes (appendBool buf k value)=
    DepositCrates.asBytes buf ++ Wire.write (flag k value)
  bytes : ∀ (buf : Anybuf) k value, DepositCrates.asBytes (appendBytes buf k value)=
    DepositCrates.asBytes buf ++ Wire.write (text k value)
  message : ∀ (buf message : Anybuf) k, DepositCrates.asBytes message≠[] →
    DepositCrates.asBytes (appendMessage buf k message)=
      DepositCrates.asBytes buf ++ Wire.write [(k,.bytes (DepositCrates.asBytes message))]
  repeated : ∀ (buf : Anybuf) k messages, DepositCrates.asBytes (appendRepeatedMessage buf k messages)=
    DepositCrates.asBytes buf ++ Wire.write (messages.map fun m => (k,.bytes (DepositCrates.asBytes m)))

theorem splitOnce_eq_some {denom chain symbol : String} (h : splitOnce denom=some (chain,symbol)) :
    denom.toList=chain.toList ++ '-' :: symbol.toList := by
  unfold splitOnce at h
  split at h
  · cases h
  · rename_i c rest hdrop
    cases h
    have hc : c = '-' := by
      have hhead := List.head?_dropWhile_not (fun c : Char => decide (c ≠ '-')) denom.toList
      rw [hdrop] at hhead
      simpa using hhead
    have happend := List.takeWhile_append_dropWhile (p := fun c : Char => decide (c ≠ '-')) (l := denom.toList)
    rw [hdrop,hc] at happend
    rw [firstPart,String.toList_ofList,String.toList_ofList]
    exact happend.symm

variable [DepositCrates]

/-- The symbol of a denom of the native chain. -/
def nativeSymbol (denom : Denom) : String := if denom="x/ruji" then "RUJI" else toUppercase denom

/-- The asset that a denom stands for. -/
def assetOf (denom : Denom) : Asset :=
  match splitOnce denom with
  | some (chain,symbol) => ⟨chain,symbol,firstPart symbol,false,false,true⟩
  | none => ⟨"THOR",nativeSymbol denom,firstPart (nativeSymbol denom),false,false,false⟩

/-- The deposit that a message stands for. -/
def MsgDeposit.meaning (self : MsgDeposit) : NetworkDeposit :=
  ⟨self.coins.map fun coin => (assetOf coin.denom,coin.amount),self.memo,self.signer⟩

theorem denomToBuf_bytes (h : DepositCrates.Encodes) (denom : Denom) :
    DepositCrates.asBytes (denomToBuf denom)=Wire.write (assetFields (assetOf denom)) := by
  unfold denomToBuf assetOf
  cases splitOnce denom with
  | some parts =>
    simp only [securedDenomToBuf,h.bool,h.string,h.new,assetFields,write_append,List.nil_append,List.append_assoc]
  | none =>
    have hnative : DepositCrates.asBytes (nativeDenomToBuf (nativeSymbol denom))=Wire.write
        (assetFields ⟨"THOR",nativeSymbol denom,firstPart (nativeSymbol denom),false,false,false⟩) := by
      simp only [nativeDenomToBuf,h.string,h.new,assetFields,write_append,List.nil_append,List.append_assoc,flag]
      simp
    rw [← hnative,nativeSymbol]
    dsimp only
    split_ifs <;> rfl

theorem assetFields_ne_nil (denom : Denom) : assetFields (assetOf denom)≠[] := by
  unfold assetOf assetFields
  cases splitOnce denom with
  | some parts => simp [flag]
  | none =>
    have hchain : CalcRs.asBytes "THOR"≠[] := by decide +kernel
    simp [text,hchain]

theorem toBuf_bytes (h : DepositCrates.Encodes) (coin : Coin) :
    DepositCrates.asBytes coin.toBuf=Wire.write (coinFields (assetOf coin.denom,coin.amount)) := by
  have hdenom := denomToBuf_bytes h coin.denom
  have hsome : DepositCrates.asBytes (denomToBuf coin.denom)≠[] := fun he =>
    assetFields_ne_nil coin.denom (write_injective (hdenom.symm.trans he))
  rw [Coin.toBuf,h.string,h.message _ _ _ hsome,h.new,hdenom,List.nil_append,← write_append]
  rfl

theorem intoCosmosMsg_value (h : DepositCrates.Encodes) (msg : MsgDeposit) :
    msg.intoCosmosMsg.value=Wire.write msg.meaning.fields := by
  simp only [MsgDeposit.intoCosmosMsg,h.bytes,h.string,h.repeated,h.new,List.map_map,Function.comp_def,toBuf_bytes h,
    NetworkDeposit.fields,MsgDeposit.meaning,write_append,List.nil_append,List.append_assoc]

/-- The denoms are the same, or the native chain has one name for both. -/
def Alike (d d' : Denom) : Prop :=
  d=d' ∨ (splitOnce d=none ∧ splitOnce d'=none ∧ nativeSymbol d=nativeSymbol d')

theorem assetOf_eq_iff {d d' : Denom} : assetOf d=assetOf d' ↔ Alike d d' := by
  constructor
  · intro h
    unfold assetOf at h
    cases hd : splitOnce d with
    | some parts =>
      cases hd' : splitOnce d' with
      | some parts' =>
        simp only [hd,hd',Asset.mk.injEq,and_true] at h
        have hsame : d.toList=d'.toList := by
          rw [splitOnce_eq_some hd,splitOnce_eq_some hd',h.1,h.2.1]
        exact .inl (String.toList_inj.mp hsame)
      | none => simp [hd,hd'] at h
    | none =>
      cases hd' : splitOnce d' with
      | some parts' => simp [hd,hd'] at h
      | none =>
        simp only [hd,hd',Asset.mk.injEq,and_true,true_and] at h
        exact .inr ⟨hd,hd',h.1⟩
  · rintro (rfl | ⟨hd,hd',h⟩)
    · rfl
    · rw [assetOf,assetOf,hd,hd']
      dsimp only
      rw [h]

theorem meaning_eq_iff {msg msg' : MsgDeposit} : msg.meaning=msg'.meaning ↔
    List.Forall₂ (fun c c' => c.amount=c'.amount ∧ Alike c.denom c'.denom) msg.coins msg'.coins ∧ msg.memo=msg'.memo ∧
      msg.signer=msg'.signer := by
  have hcoins : (msg.coins.map fun coin => (assetOf coin.denom,coin.amount))=
      (msg'.coins.map fun coin => (assetOf coin.denom,coin.amount)) ↔
      List.Forall₂ (fun c c' => c.amount=c'.amount ∧ Alike c.denom c'.denom) msg.coins msg'.coins := by
    rw [← List.forall₂_eq_eq_eq,List.forall₂_map_left_iff,List.forall₂_map_right_iff]
    simp only [Prod.mk.injEq,assetOf_eq_iff,and_comm]
  rw [MsgDeposit.meaning,MsgDeposit.meaning,NetworkDeposit.mk.injEq,hcoins]

/-- The network reads in the bytes of a deposit what the message means: each coin with its asset and amount, in their
order, the memo and the signer. Two deposits have the same bytes only if they agree in all of this, up to denoms that the
native chain names alike; a secured asset is taken for no other. -/
theorem deposits_read_back (h : DepositCrates.Encodes) (msg : MsgDeposit) :
    readDeposit msg.intoCosmosMsg.value=some msg.meaning ∧ ∀ msg' : MsgDeposit,
      msg.intoCosmosMsg=msg'.intoCosmosMsg ↔
        List.Forall₂ (fun c c' => c.amount=c'.amount ∧ Alike c.denom c'.denom) msg.coins msg'.coins ∧
        msg.memo=msg'.memo ∧ msg.signer=msg'.signer := by
  have hread : ∀ msg : MsgDeposit, readDeposit msg.intoCosmosMsg.value=some msg.meaning := fun msg => by
    rw [intoCosmosMsg_value h,readDeposit_write]
  refine ⟨hread msg,fun msg' => Iff.trans ⟨fun he => ?_,fun he => ?_⟩ meaning_eq_iff⟩
  · exact Option.some.inj ((hread msg).symm.trans ((congrArg (fun m => readDeposit m.value) he).trans (hread msg')))
  · have hvalue : msg.intoCosmosMsg.value=msg'.intoCosmosMsg.value := by
      rw [intoCosmosMsg_value h,intoCosmosMsg_value h,he]
    exact congrArg (AnyMsg.mk "/types.MsgDeposit") hvalue

end

section

open DepositCrates hiding asBytes

/-- Bytes that grow by fields. -/
@[reducible] def DepositCrates.plain : DepositCrates where
  Anybuf := Binary
  new := []
  appendString buf k s := buf ++ Wire.write (text k (CalcRs.asBytes s))
  appendBool buf k value := buf ++ Wire.write (flag k value)
  appendBytes buf k value := buf ++ Wire.write (text k value)
  appendMessage buf k message := buf ++ Wire.write [(k,.bytes message)]
  appendRepeatedMessage buf k messages := buf ++ Wire.write (messages.map fun m => (k,.bytes m))
  asBytes buf := buf
  toUppercase := String.toUpper

attribute [local instance] DepositCrates.plain

theorem DepositCrates.plain_encodes : DepositCrates.Encodes :=
  ⟨rfl,fun _ _ _ => rfl,fun _ _ _ => rfl,fun _ _ _ => rfl,fun _ _ _ _ => rfl,fun _ _ _ => rfl⟩

theorem deposits_read_back_both : readDeposit (MsgDeposit.mk "test" [⟨1000,"rune"⟩,⟨1000,"gaia-atom"⟩] [1,2,3]).intoCosmosMsg.value=
    some ⟨[(⟨"THOR","RUNE","RUNE",false,false,false⟩,1000),(⟨"gaia","atom","atom",false,false,true⟩,1000)],"test",[1,2,3]⟩ :=
  ((deposits_read_back DepositCrates.plain_encodes _).1).trans (by decide +kernel)

end

end CalcRs
