import Mycel.CommandLine.Host

/-!
# Addresses

An address is a host and a port with a colon between them. A host with colons of its own stands in
brackets. The server listens on short addresses only, and only on those of the machine itself.
-/

namespace Mycel.Address

/-- A complaint about an address. -/
def complaint (addr : Text) (why : String) : Text :=
  bytes "address " ++ addr ++ bytes ": " ++ bytes why

/-- The part of an address after its last colon, and the part before it, if there is a colon. -/
def lastColon? (addr : Text) : Option (Text × Text) :=
  let port := addr.reverse.takeWhile (· != 58)
  if port.length = addr.length then none
  else some (port.reverse, (addr.reverse.drop (port.length + 1)).reverse)

/-- What is wrong with the bracketed host of an address. -/
def bracketFault? (addr host : Text) : Option Text :=
  let inside := addr.takeWhile (· != 93)
  if inside.length = addr.length then some (complaint addr "missing ']' in address")
  else
    let after := addr.drop (inside.length + 1)
    if after.isEmpty then some (complaint addr "missing port in address")
    else if inside.length + 1 = host.length then none
    else if after.head? = some 58 then some (complaint addr "too many colons in address")
    else some (complaint addr "missing port in address")

/-- The number of a port that is greater than every other. -/
def farPort : Nat := 1073741823

/-- The number that digits say, in 32 bits, when `n` stands for those before them. What follows a
number beyond `farPort` is not looked at. -/
def portNumber? (n : Nat) : Text → Option Nat
  | [] => some (min n farPort)
  | b :: rest =>
    if !Decimal.isDigit b then none
    else
      let next := n * 10 % 4294967296 + (b.toNat - 48)
      if n > farPort ∨ next ≥ 4294967296 then some farPort else portNumber? next rest

/-- The number of a port, or what is wrong with it. No port at all is port zero. -/
def port (t : Text) : Except Text Nat :=
  let (sign, digits) := Decimal.sign t
  match portNumber? 0 digits with
  | none => .error (bytes "lookup tcp/" ++ t ++ bytes ": unknown port")
  | some n =>
    if (sign < 0 && n > 0) || n > 65535 then .error (complaint t "invalid port") else .ok n

/-- The host and the port of an address, or what is wrong with the address. -/
def split (addr : Text) : Except Text (Text × Text) :=
  match lastColon? addr with
  | none => .error (complaint addr "missing port in address")
  | some (port, host) =>
    let isBracketed := addr.head? = some 91
    let fault :=
      if isBracketed then bracketFault? addr host
      else if host.contains 58 then some (complaint addr "too many colons in address")
      else none
    match fault with
    | some f => .error f
    | none =>
      let outer := if isBracketed then addr.drop 1 else addr
      let tail := if isBracketed then (addr.dropWhile (· != 93)).drop 1 else addr
      if outer.contains 91 then .error (complaint addr "unexpected '[' in address")
      else if tail.contains 93 then .error (complaint addr "unexpected ']' in address")
      else .ok (if isBracketed then (host.drop 1).dropLast else host, port)

/-- Why nothing can listen on a host and a port. Nothing is known about names that can be looked
up. -/
def hostFault? (host : Text) (port : Nat) : Option Text :=
  if host.isEmpty then none
  else match Host.ofText host with
    | .short octets =>
      if octets.all (· == 0) || octets.head? == some 127 then none
      else some (bytes " " ++ Text.join [46] (octets.map Text.ofNat) ++ 58 :: Text.ofNat port ++
        bytes ": bind: cannot assign requested address")
    | .long groups =>
      if groups.all (· == 0) then none
      else some (bytes ": " ++ complaint host "no suitable address found")
    | .name t =>
      if Host.isDomainName t then none
      else some (bytes ": lookup " ++ t ++ bytes ": no such host")

/-- Why nothing can listen on an address, as it is told after what was tried. -/
def fault? (addr : Text) : Option Text :=
  if addr.isEmpty then none
  else
    let parsed := do
      let (host, p) ← split addr
      return (host, ← port p)
    match parsed with
    | .error why => some (bytes ": " ++ why)
    | .ok (host, n) => hostFault? host n

end Mycel.Address
