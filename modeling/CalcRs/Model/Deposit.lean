import CalcRs.Model.Types

/-! The bytes of a deposit: `MsgDeposit` in `thorchain.rs`. -/
namespace CalcRs

/-- What the bytes are built with: the `anybuf` crate, and the Unicode tables behind `to_uppercase`. -/
class DepositCrates where
  Anybuf : Type
  new : Anybuf
  appendString : Anybuf → ℕ → String → Anybuf
  appendBool : Anybuf → ℕ → Bool → Anybuf
  appendBytes : Anybuf → ℕ → Binary → Anybuf
  appendMessage : Anybuf → ℕ → Anybuf → Anybuf
  appendRepeatedMessage : Anybuf → ℕ → List Anybuf → Anybuf
  asBytes : Anybuf → Binary
  toUppercase : String → String

structure AnyMsg where
  typeUrl : String
  value : Binary
  deriving DecidableEq

/-- `symbol.split("-").next()`. -/
def firstPart (symbol : String) : String := String.ofList (symbol.toList.takeWhile (· ≠ '-'))

/-- `denom.split_once("-")`. -/
def splitOnce (denom : String) : Option (String × String) :=
  match denom.toList.dropWhile (· ≠ '-') with
  | [] => none
  | _ :: symbol => some (firstPart denom,String.ofList symbol)

open DepositCrates hiding asBytes

variable [DepositCrates]

/-- `secured_denom_to_buf`. -/
def securedDenomToBuf (chain symbol : String) : Anybuf :=
  let buf := appendString new 1 chain
  let buf := appendString buf 2 symbol
  let buf := appendString buf 3 (firstPart symbol)
  let buf := appendBool buf 4 false
  let buf := appendBool buf 5 false
  appendBool buf 6 true

/-- `native_denom_to_buf`. -/
def nativeDenomToBuf (symbol : String) : Anybuf :=
  let buf := appendString new 1 "THOR"
  let buf := appendString buf 2 symbol
  appendString buf 3 (firstPart symbol)

/-- `denom_to_buf`. -/
def denomToBuf (denom : Denom) : Anybuf :=
  match splitOnce denom with
  | some (chain,symbol) => securedDenomToBuf chain symbol
  | none => if denom="x/ruji" then nativeDenomToBuf "RUJI" else nativeDenomToBuf (toUppercase denom)

/-- One coin of a deposit. -/
def Coin.toBuf (coin : Coin) : Anybuf :=
  appendString (appendMessage new 1 (denomToBuf coin.denom)) 2 (toString coin.amount)

/-- `MsgDeposit::into_cosmos_msg`. -/
def MsgDeposit.intoCosmosMsg (self : MsgDeposit) : AnyMsg :=
  let coins := self.coins.map Coin.toBuf
  let value := appendRepeatedMessage new 1 coins
  let value := appendString value 2 self.memo
  let value := appendBytes value 3 self.signer
  ⟨"/types.MsgDeposit",DepositCrates.asBytes value⟩

end CalcRs
