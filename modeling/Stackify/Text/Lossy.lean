/-!
Reading text out of raw code units. A unit, or a run of units, that spells no character is read as
the replacement character, so every sequence of units reads as some text.
-/

namespace Stackify.Text

def replacement : Char := '�'

/-! ## Octets -/

/-- May `b` follow the leading octet `a` of a sequence of two or more? -/
def secondOctet (a b : Nat) : Bool :=
  if a = 0xe0 then 0xa0 ≤ b && b ≤ 0xbf
  else if a = 0xed then 0x80 ≤ b && b ≤ 0x9f
  else if a = 0xf0 then 0x90 ≤ b && b ≤ 0xbf
  else if a = 0xf4 then 0x80 ≤ b && b ≤ 0x8f
  else 0x80 ≤ b && b ≤ 0xbf

def trailingOctet (b : Nat) : Bool := 0x80 ≤ b && b ≤ 0xbf

/-- The character that starts with octet `a`, and how many of the following octets it takes. A
sequence that breaks off is replaced as a whole, up to the octet that does not fit. -/
def readOctets (a : Nat) (rest : List Nat) : Char × Nat :=
  if a < 0x80 then (Char.ofNat a, 0)
  else if a < 0xc2 || 0xf4 < a then (replacement, 0)
  else
    match rest with
    | [] => (replacement, 0)
    | b :: rest =>
      if !secondOctet a b then (replacement, 0)
      else if a < 0xe0 then (Char.ofNat (a % 32 * 64 + b % 64), 1)
      else
        match rest with
        | [] => (replacement, 1)
        | c :: rest =>
          if !trailingOctet c then (replacement, 1)
          else if a < 0xf0 then (Char.ofNat (a % 16 * 4096 + b % 64 * 64 + c % 64), 2)
          else
            match rest with
            | [] => (replacement, 2)
            | d :: _ =>
              if !trailingOctet d then (replacement, 2)
              else (Char.ofNat (a % 8 * 262144 + b % 64 * 4096 + c % 64 * 64 + d % 64), 3)

/-- The text spelled by octets. -/
def ofOctets : List Nat → List Char
  | [] => []
  | a :: rest =>
    let r := readOctets a rest
    r.1 :: ofOctets (rest.drop r.2)
termination_by l => l.length
decreasing_by simp only [List.length_drop, List.length_cons]; omega

/-! ## Sixteen-bit units -/

def isHighSurrogate (u : Nat) : Bool := 0xd800 ≤ u && u ≤ 0xdbff

def isLowSurrogate (u : Nat) : Bool := 0xdc00 ≤ u && u ≤ 0xdfff

def surrogatePair (high low : Nat) : Char :=
  Char.ofNat (0x10000 + (high - 0xd800) * 1024 + (low - 0xdc00))

/-- The text spelled by sixteen-bit units; a surrogate without its partner is replaced. -/
def ofUnits : List Nat → List Char
  | [] => []
  | [u] => [if isHighSurrogate u || isLowSurrogate u then replacement else Char.ofNat u]
  | u :: v :: rest =>
    if isHighSurrogate u && isLowSurrogate v then surrogatePair u v :: ofUnits rest
    else (if isHighSurrogate u || isLowSurrogate u then replacement else Char.ofNat u) ::
      ofUnits (v :: rest)

end Stackify.Text
