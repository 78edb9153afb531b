import GrapheneLtp.Core.Decimal
import GrapheneLtp.Core.Hexadecimal

/-!
# Addresses in an unused network

A model of `tst_ipaddr_un` of `tst_net.sh`, which numbers addresses by a counter and
the type of the host, or by a network and a host id.  The ranges of both ids come from
options, with defaults for the bounds that are not given.
-/

namespace GrapheneLtp.NetShell

open CString Decimal Hexadecimal

section Code

inductive HostType where
  | lhost
  | rhost
deriving DecidableEq, Repr

/-- What `getopts` finds: an option with its argument. -/
inductive Flag where
  | counter (value : ℤ)
  | host (range : List Char)
  | net (range : List Char)
  | printPrefix
deriving DecidableEq, Repr

/-- What is left on the command line: nothing or a type, or one or two ids. -/
inductive Target where
  | counting (type : Option HostType)
  | ids (netId : ℤ) (hostId : Option ℤ)
deriving DecidableEq, Repr

def Target.isCounter : Target → Bool
  | counting _ => true
  | ids _ _ => false

/-- The texts of two bounds. -/
structure Bounds where
  min : List Char
  max : List Char
deriving DecidableEq, Repr

/-- The variables that options set: `min_host_id` and `max_host_id`, `min_net_id` and
`max_net_id`, the counter and the prefix. -/
structure Settings where
  counter : Option ℤ
  host : Bounds
  net : Bounds
  withPrefix : Bool
deriving DecidableEq, Repr

/-- `default_max`. -/
def defaultMax (ipv6 : Bool) : ℕ := if ipv6 then 65535 else 255

/-- `cut -d, -f1`. -/
def cutFirst (text : List Char) : List Char := text.takeWhile (· ≠ ',')

/-- `cut -d, -f2` of a text with a comma. -/
def cutSecond (text : List Char) : List Char :=
  ((text.dropWhile (· ≠ ',')).drop 1).takeWhile (· ≠ ',')

/-- The argument of `-h` or `-n`: 'min,max', 'min,' or ',max', or else min. -/
def Bounds.set (bounds : Bounds) (range : List Char) : Bounds :=
  if ',' ∈ range then ⟨cutFirst range, cutSecond range⟩ else { bounds with min := range }

/-- The branches of the loop over the options. -/
def Settings.apply (settings : Settings) : Flag → Settings
  | .counter value => { settings with counter := some value }
  | .host range => { settings with host := settings.host.set range }
  | .net range => { settings with net := settings.net.set range }
  | .printPrefix => { settings with withPrefix := true }

def initialSettings (ipv6 : Bool) : Settings where
  counter := none
  host := ⟨[], []⟩
  net := ⟨decimal 0, decimal (defaultMax ipv6)⟩
  withPrefix := false

/-- The default for `min_host_id`. -/
def minHostDefault (isCounter : Bool) : ℕ := if isCounter then 1 else 0

/-- The default for `max_host_id`. -/
def maxHostDefault (ipv6 isCounter : Bool) : ℕ :=
  if isCounter then defaultMax ipv6 - 1 else defaultMax ipv6

/-- The bounds of the host ids get a default if they are empty. -/
def Settings.fill (ipv6 isCounter : Bool) (settings : Settings) : Settings :=
  { settings with
    host := {
      min := if settings.host.min = [] then decimal (minHostDefault isCounter)
        else settings.host.min
      max := if settings.host.max = [] then decimal (maxHostDefault ipv6 isCounter)
        else settings.host.max } }

/-- Digits without a leading zero.  With one, tests read a number as decimal and
arithmetic reads it as octal; such texts are not modelled. -/
def isNumeral (digits : List Char) : Bool :=
  digits ≠ [] && digits.all Char.isDigit && (digits.head? ≠ some '0' || digits = ['0'])

/-- The number of a text that passes `tst_is_int`. -/
def shellInt : List Char → Option ℤ
  | '-' :: digits => if isNumeral digits then some (-(digitsValue digits : ℤ)) else none
  | digits => if isNumeral digits then some (digitsValue digits) else none

/-- A bound that is an integer from zero to the limit. -/
def readBound (limit : ℕ) (text : List Char) : Option (Fin (limit + 1)) :=
  match shellInt text with
  | none => none
  | some value =>
    if hvalue : 0 ≤ value ∧ value ≤ limit then
      some ⟨value.toNat, Nat.lt_succ_of_le (Int.toNat_le.mpr hvalue.2)⟩
    else none

/-- The reasons for `tst_brk_ TBROK`. -/
inductive IdError where
  | hostId (limit : ℕ) (min max : List Char)
  | netId (limit : ℕ) (min max : List Char)
  | hostOrder (min max : List Char)
  | netOrder (min max : List Char)
deriving DecidableEq, Repr

def IdError.message : IdError → List Char
  | hostId limit min max =>
    "tst_ipaddr_un: HOST_ID must be int in range <0,".toList ++ decimal limit ++
      "> (".toList ++ min ++ ",".toList ++ max ++ ")".toList
  | netId limit min max =>
    "tst_ipaddr_un: NET_ID must be int in range <0,".toList ++ decimal limit ++
      "> (".toList ++ min ++ ",".toList ++ max ++ ")".toList
  | hostOrder min max =>
    "tst_ipaddr_un: max HOST_ID (".toList ++ max ++
      ") must be >= min HOST_ID (".toList ++ min ++ ")".toList
  | netOrder min max =>
    "tst_ipaddr_un: max NET_ID (".toList ++ max ++
      ") must be >= min NET_ID (".toList ++ min ++ ")".toList

/-- Ranges of ids that have passed the checks. -/
structure Ranges (limit : ℕ) where
  minHost : Fin (limit + 1)
  maxHost : Fin (limit + 1)
  minNet : Fin (limit + 1)
  maxNet : Fin (limit + 1)
  host_le : minHost ≤ maxHost
  net_le : minNet ≤ maxNet
deriving DecidableEq, Repr

/-- The checks of the bounds. -/
def checkRanges (limit : ℕ) (settings : Settings) : Except IdError (Ranges limit) :=
  match readBound limit settings.host.min, readBound limit settings.host.max with
  | some minHost, some maxHost =>
    match readBound limit settings.net.min, readBound limit settings.net.max with
    | some minNet, some maxNet =>
      if hhost : minHost ≤ maxHost then
        if hnet : minNet ≤ maxNet then
          .ok ⟨minHost, maxHost, minNet, maxNet, hhost, hnet⟩
        else .error (.netOrder settings.net.min settings.net.max)
      else .error (.hostOrder settings.host.min settings.host.max)
    | _, _ => .error (.netId limit settings.net.min settings.net.max)
  | _, _ => .error (.hostId limit settings.host.min settings.host.max)

/-- Arithmetic of the shell has 64 bits. -/
def wrap (value : ℤ) : ℤ := value.bmod (2 ^ 64)

variable {limit : ℕ}

/-- The number of host ids. -/
def Ranges.hostRange (ranges : Ranges limit) : ℤ := ranges.maxHost - ranges.minHost + 1

/-- The number of network ids. -/
def Ranges.netRange (ranges : Ranges limit) : ℤ := ranges.maxNet - ranges.minNet + 1

/-- The network and the host id for a counter. -/
def Ranges.count (ranges : Ranges limit) (counter : Option ℤ) (type : HostType) : ℤ × ℤ :=
  let counter := counter.getD 1
  let counter := if counter < 1 then 1 else counter
  let tmp := wrap (counter * 2)
  let tmp := if type = .rhost then wrap (tmp - 1) else tmp
  let netId := (wrap (tmp - 1)).tdiv ranges.hostRange
  (netId, wrap (tmp - netId * ranges.hostRange + ranges.minHost - 1))

/-- The network and the host id of the address. -/
def Ranges.netAndHost (ranges : Ranges limit) (counter : Option ℤ) (target : Target) : ℤ × ℤ :=
  let (netId, hostId) := match target with
    | .counting type => ranges.count counter (type.getD .lhost)
    | .ids netId hostId =>
      (netId, (hostId.getD 0).tmod ranges.hostRange + ranges.minHost)
  (netId.tmod ranges.netRange + ranges.minNet, hostId)

/-- The text of an address.  In an IPv6 address ids that are zero are left out. -/
def addressText (ipv6 : Bool) (unused : List Char) (withPrefix : Bool) (netId hostId : ℤ) :
    List Char :=
  if ipv6 then
    unused ++ (if 0 < netId then ':' :: hex netId.toNat else []) ++ "::".toList ++
      (if 0 < hostId then hex hostId.toNat else []) ++
      (if withPrefix then "/64".toList else [])
  else
    unused ++ '.' :: signedDecimal netId ++ '.' :: signedDecimal hostId ++
      (if withPrefix then "/24".toList else [])

def readSettings (ipv6 : Bool) (flags : List Flag) (target : Target) : Settings :=
  (flags.foldl Settings.apply (initialSettings ipv6)).fill ipv6 target.isCounter

/-- The ranges of the ids for some options. -/
def readRanges (ipv6 : Bool) (flags : List Flag) (target : Target) :
    Except IdError (Ranges (defaultMax ipv6)) :=
  checkRanges (defaultMax ipv6) (readSettings ipv6 flags target)

/-- `tst_ipaddr_un`, for the network in `IPV4_NET16_UNUSED` or `IPV6_NET32_UNUSED`. -/
def tstIpaddrUn (ipv6 : Bool) (unused : List Char) (flags : List Flag) (target : Target) :
    Except IdError (List Char) := do
  let settings := readSettings ipv6 flags target
  let ranges ← checkRanges (defaultMax ipv6) settings
  let (netId, hostId) := ranges.netAndHost settings.counter target
  return addressText ipv6 unused settings.withPrefix netId hostId

end Code

section Bounds

theorem isNumeral_decimal (value : ℕ) : isNumeral (decimal value) = true := by
  have hdigits : (decimal value).all Char.isDigit = true :=
    List.all_eq_true.mpr fun c hc => isDigit_of_mem_decimal hc
  have hzero : (decimal value).head? ≠ some '0' ∨ decimal value = ['0'] := by
    by_cases hhead : (decimal value).head? = some '0'
    · exact .inr (decimal_of_head_zero hhead)
    · exact .inl hhead
  simp only [isNumeral, hdigits, Bool.and_true, Bool.and_eq_true, Bool.or_eq_true,
    decide_eq_true_eq]
  exact ⟨decimal_ne_nil value, hzero⟩

theorem shellInt_decimal (value : ℕ) : shellInt (decimal value) = some (value : ℤ) := by
  obtain ⟨digit, digits, hdigits⟩ := List.exists_cons_of_ne_nil (decimal_ne_nil value)
  have hdigit : digit.isDigit = true := isDigit_of_mem_decimal (hdigits ▸ List.mem_cons_self)
  have hnumeral := isNumeral_decimal value
  have hvalue := digitsValue_decimal value
  rw [hdigits] at hnumeral hvalue ⊢
  rw [shellInt, if_pos hnumeral, hvalue]
  rintro rest hminus
  cases hminus
  cases hdigit

theorem readBound_decimal {limit value : ℕ} (hvalue : value ≤ limit) :
    readBound limit (decimal value) = some ⟨value, Nat.lt_succ_of_le hvalue⟩ := by
  have hbounds : 0 ≤ (value : ℤ) ∧ (value : ℤ) ≤ limit :=
    ⟨Int.natCast_nonneg value, Int.ofNat_le.mpr hvalue⟩
  rw [readBound, shellInt_decimal]
  exact dif_pos hbounds

end Bounds

section Counting

variable {limit : ℕ} (ranges : Ranges limit)

theorem wrap_eq {value : ℤ} (hlow : -2 ^ 63 ≤ value) (hhigh : value < 2 ^ 63) :
    wrap value = value :=
  Int.bmod_eq_of_le (by norm_num; exact hlow) (by norm_num; exact hhigh)

theorem Ranges.hostRange_pos : 0 < ranges.hostRange := by
  have hle := ranges.host_le
  rw [Fin.le_def] at hle
  rw [Ranges.hostRange]
  omega

theorem Ranges.netRange_pos : 0 < ranges.netRange := by
  have hle := ranges.net_le
  rw [Fin.le_def] at hle
  rw [Ranges.netRange]
  omega

/-- The number of an address: the remote host comes before the local one. -/
def numbered (counter : ℤ) : HostType → ℤ
  | .lhost => 2 * counter - 1
  | .rhost => 2 * counter - 2

/-- The counter that is used. -/
def counted (counter : Option ℤ) : ℤ := max (counter.getD 1) 1

theorem counted_pos (counter : Option ℤ) : 1 ≤ counted counter := le_max_right _ _

theorem numbered_nonneg {counter : ℤ} (hcounter : 1 ≤ counter) (type : HostType) :
    0 ≤ numbered counter type := by
  cases type <;> rw [numbered] <;> omega

theorem Ranges.lt_hostRange (number : ℤ) :
    0 ≤ number % ranges.hostRange ∧ number % ranges.hostRange < ranges.hostRange :=
  ⟨Int.emod_nonneg number ranges.hostRange_pos.ne', Int.emod_lt_of_pos number ranges.hostRange_pos⟩

theorem wrap_wrap_sub (value other : ℤ) : wrap (wrap value - other) = wrap (value - other) :=
  Int.bmod_sub_bmod

/-- The variable `tmp` is one more than the number of the address. -/
theorem wrap_double (counter : ℤ) (type : HostType) :
    (if type = .rhost then wrap (wrap (counter * 2) - 1) else wrap (counter * 2)) =
      wrap (numbered counter type + 1) := by
  cases type with
  | lhost =>
    rw [if_neg (by decide), numbered]
    congr 1
    ring
  | rhost =>
    rw [if_pos rfl, wrap_wrap_sub, numbered]
    congr 1
    ring

/-- The ids for a counter whose numbers are of the type. -/
theorem Ranges.count_eq {counter : Option ℤ} (type : HostType)
    (hcounter : counter.getD 1 ≤ 2 ^ 62) (hlimit : limit < 2 ^ 62) :
    ranges.count counter type = (numbered (counted counter) type / ranges.hostRange,
        numbered (counted counter) type % ranges.hostRange + ranges.minHost) := by
  have hle : counted counter ≤ 2 ^ 62 := max_le hcounter (by norm_num)
  have hcount : ranges.count counter type =
      ((wrap (wrap (numbered (counted counter) type + 1) - 1)).tdiv ranges.hostRange,
        wrap (wrap (numbered (counted counter) type + 1) -
          (wrap (wrap (numbered (counted counter) type + 1) - 1)).tdiv ranges.hostRange *
            ranges.hostRange + ranges.minHost - 1)) := by
    rw [← wrap_double, counted, max_comm, max_def]
    simp only [Ranges.count, ← not_lt, ite_not]
  generalize hnumber : numbered (counted counter) type = number at hcount ⊢
  have hnonneg : 0 ≤ number := hnumber ▸ numbered_nonneg (counted_pos counter) type
  have hlt : number < 2 ^ 63 := by
    rw [← hnumber]
    cases type <;> rw [numbered] <;> omega
  obtain ⟨hlow, hhigh⟩ := ranges.lt_hostRange number
  have hmax : number % ranges.hostRange + ranges.minHost ≤ ranges.maxHost := by
    rw [Ranges.hostRange] at hhigh ⊢
    omega
  have hmaxHost := ranges.maxHost.isLt
  have hhost : wrap (number + 1) - number / ranges.hostRange * ranges.hostRange +
      ranges.minHost - 1 = wrap (number + 1) -
        (number / ranges.hostRange * ranges.hostRange - ranges.minHost + 1) := by
    ring
  have hmod : number + 1 - (number / ranges.hostRange * ranges.hostRange -
      ranges.minHost + 1) = number % ranges.hostRange + ranges.minHost := by
    linarith [Int.mul_ediv_add_emod number ranges.hostRange]
  rw [hcount, wrap_wrap_sub, add_sub_cancel_right, wrap_eq (by omega) hlt,
    Int.tdiv_eq_ediv_of_nonneg hnonneg, hhost, wrap_wrap_sub, hmod,
    wrap_eq (by omega) (by omega)]

/-- The ids of the address with a number. -/
def Ranges.place (number : ℤ) : ℤ × ℤ :=
  (number / ranges.hostRange % ranges.netRange + ranges.minNet,
    number % ranges.hostRange + ranges.minHost)

theorem Ranges.netAndHost_counting {counter : Option ℤ} (type : Option HostType)
    (hcounter : counter.getD 1 ≤ 2 ^ 62) (hlimit : limit < 2 ^ 62) :
    ranges.netAndHost counter (.counting type) =
      ranges.place (numbered (counted counter) (type.getD .lhost)) := by
  have hnonneg := numbered_nonneg (counted_pos counter) (type.getD .lhost)
  have hnet := Int.ediv_nonneg hnonneg ranges.hostRange_pos.le
  rw [Ranges.place, ← Int.tmod_eq_emod_of_nonneg hnet, Ranges.netAndHost,
    ranges.count_eq _ hcounter hlimit]

theorem Ranges.netAndHost_ids (counter : Option ℤ) {netId : ℤ} {hostId : Option ℤ}
    (hnet : 0 ≤ netId) (hhost : 0 ≤ hostId.getD 0) :
    ranges.netAndHost counter (.ids netId hostId) = (netId % ranges.netRange + ranges.minNet,
        hostId.getD 0 % ranges.hostRange + ranges.minHost) := by
  rw [Ranges.netAndHost, Int.tmod_eq_emod_of_nonneg hnet, Int.tmod_eq_emod_of_nonneg hhost]

/-- Ids in the ranges. -/
def Ranges.Contains (ids : ℤ × ℤ) : Prop := (ranges.minNet ≤ ids.1 ∧ ids.1 ≤ ranges.maxNet) ∧
    ranges.minHost ≤ ids.2 ∧ ids.2 ≤ ranges.maxHost

theorem Ranges.contains_place (number : ℤ) : ranges.Contains (ranges.place number) := by
  obtain ⟨hlow, hhigh⟩ := ranges.lt_hostRange number
  have hnetlow := Int.emod_nonneg (number / ranges.hostRange) ranges.netRange_pos.ne'
  have hnethigh := Int.emod_lt_of_pos (number / ranges.hostRange) ranges.netRange_pos
  have hhost : ranges.hostRange = ranges.maxHost - ranges.minHost + 1 := rfl
  have hnet : ranges.netRange = ranges.maxNet - ranges.minNet + 1 := rfl
  rw [Ranges.Contains, Ranges.place]
  omega

/-- Numbers below the number of all ids have their own ids. -/
theorem Ranges.place_inj {left right : ℤ} (hleft : 0 ≤ left) (hright : 0 ≤ right)
    (hleftlt : left < ranges.hostRange * ranges.netRange)
    (hrightlt : right < ranges.hostRange * ranges.netRange)
    (hplace : ranges.place left = ranges.place right) : left = right := by
  obtain ⟨hnet, hhost⟩ := Prod.ext_iff.mp hplace
  have hpos := ranges.hostRange_pos
  have hdiv {number : ℤ} (hnonneg : 0 ≤ number)
      (hlt : number < ranges.hostRange * ranges.netRange) :
      number / ranges.hostRange % ranges.netRange = number / ranges.hostRange :=
    Int.emod_eq_of_lt (Int.ediv_nonneg hnonneg hpos.le) (Int.ediv_lt_of_lt_mul hpos (by linarith))
  rw [Ranges.place, Ranges.place, add_left_inj, hdiv hleft hleftlt, hdiv hright hrightlt] at hnet
  rw [Ranges.place, Ranges.place, add_left_inj] at hhost
  calc left = ranges.hostRange * (left / ranges.hostRange) + left % ranges.hostRange :=
        (Int.mul_ediv_add_emod left ranges.hostRange).symm
    _ = ranges.hostRange * (right / ranges.hostRange) + right % ranges.hostRange := by
        rw [hnet, hhost]
    _ = right := Int.mul_ediv_add_emod right ranges.hostRange

theorem numbered_inj {left right : ℤ} {leftType rightType : HostType}
    (hnumber : numbered left leftType = numbered right rightType) :
    left = right ∧ leftType = rightType := by
  cases leftType <;> cases rightType <;> simp only [numbered] at hnumber <;>
    first
      | exact ⟨by omega, rfl⟩
      | omega

end Counting

section Texts

variable {ipv6 : Bool} {unused : List Char} {withPrefix : Bool}

theorem signedDecimal_natCast (value : ℕ) : signedDecimal value = decimal value := by
  rw [signedDecimal, if_neg (not_lt.mpr (Int.natCast_nonneg value)), Int.natAbs_natCast]

/-- The text of an id in an IPv6 address. -/
def hextet (value : ℕ) : List Char := if 0 < value then hex value else []

theorem hextet_injective : Function.Injective hextet := by
  intro left right hequal
  rw [hextet, hextet] at hequal
  split_ifs at hequal with hleft hright hright
  · exact hex_injective hequal
  · exact absurd hequal (hex_ne_nil left)
  · exact absurd hequal.symm (hex_ne_nil right)
  · omega

/-- The text of a network id in an IPv6 address, up to the two colons. -/
def netPart (value : ℕ) : List Char := if 0 < value then ':' :: hex value else []

theorem netPart_append_inj {left right : ℕ} {leftRest rightRest : List Char}
    (hequal : netPart left ++ ':' :: ':' :: leftRest = netPart right ++ ':' :: ':' :: rightRest) :
    left = right ∧ leftRest = rightRest := by
  have hhead {value : ℕ} {rest other : List Char} : hex value ++ ':' :: rest ≠ ':' :: other := by
    obtain ⟨digit, digits, hdigits⟩ := List.exists_cons_of_ne_nil (hex_ne_nil value)
    rw [hdigits, List.cons_append, Ne, List.cons.injEq]
    exact fun hcolon => isHexDigit_ne_colon
      (isHexDigit_of_mem_hex (hdigits ▸ List.mem_cons_self)) hcolon.1
  rw [netPart, netPart] at hequal
  split_ifs at hequal with hleft hright hright
  · obtain ⟨hvalue, hrest⟩ := hex_append_inj (List.cons.inj hequal).2
    exact ⟨hvalue, (List.cons.inj hrest).2⟩
  · exact absurd (List.cons.inj hequal).2 hhead
  · exact absurd (List.cons.inj hequal).2.symm hhead
  · refine ⟨by omega, ?_⟩
    rw [List.nil_append, List.nil_append, List.cons.injEq, List.cons.injEq] at hequal
    exact hequal.2.2

/-- Ids that are not negative are told apart in the text. -/
theorem addressText_inj {leftNet leftHost rightNet rightHost : ℕ}
    (htext : addressText ipv6 unused withPrefix leftNet leftHost =
      addressText ipv6 unused withPrefix rightNet rightHost) :
    leftNet = rightNet ∧ leftHost = rightHost := by
  have hipv6 (netId hostId : ℕ) : addressText true unused withPrefix netId hostId =
      unused ++ (netPart netId ++ ':' :: ':' ::
        (hextet hostId ++ if withPrefix then "/64".toList else [])) := by
    simp [addressText, netPart, hextet]
  have hipv4 (netId hostId : ℕ) : addressText false unused withPrefix netId hostId =
      unused ++ '.' :: (decimal netId ++ '.' ::
        (decimal hostId ++ if withPrefix then "/24".toList else [])) := by
    simp [addressText, signedDecimal_natCast]
  cases ipv6 with
  | true =>
    rw [hipv6, hipv6, List.append_cancel_left_eq] at htext
    obtain ⟨hnet, hrest⟩ := netPart_append_inj htext
    exact ⟨hnet, hextet_injective (List.append_cancel_right hrest)⟩
  | false =>
    rw [hipv4, hipv4, List.append_cancel_left_eq, List.cons.injEq] at htext
    obtain ⟨hnet, hrest⟩ := decimal_append_inj rfl htext.2
    exact ⟨hnet, decimal_injective (List.append_cancel_right hrest)⟩

end Texts

section Options

/-- The documented arguments of `-h` and `-n`. -/
inductive RangeForm where
  | both (min max : ℕ)
  | lower (min : ℕ)
  | upper (max : ℕ)
deriving DecidableEq, Repr

def RangeForm.text : RangeForm → List Char
  | both min max => decimal min ++ ',' :: decimal max
  | lower min => decimal min
  | upper max => ',' :: decimal max

/-- The bounds that are given or else the defaults. -/
def givenBounds (low high : ℕ) : Option RangeForm → ℕ × ℕ
  | none => (low, high)
  | some (.both min max) => (min, max)
  | some (.lower min) => (min, high)
  | some (.upper max) => (low, max)

def hostArgument : Flag → Option (List Char)
  | .host range => some range
  | _ => none

def netArgument : Flag → Option (List Char)
  | .net range => some range
  | _ => none

theorem host_foldl (flags : List Flag) (settings : Settings) :
    (flags.foldl Settings.apply settings).host =
      (flags.filterMap hostArgument).foldl Bounds.set settings.host := by
  induction flags generalizing settings with
  | nil => rfl
  | cons flag flags ih =>
    rw [List.foldl_cons, ih]
    cases flag <;> rfl

theorem net_foldl (flags : List Flag) (settings : Settings) :
    (flags.foldl Settings.apply settings).net =
      (flags.filterMap netArgument).foldl Bounds.set settings.net := by
  induction flags generalizing settings with
  | nil => rfl
  | cons flag flags ih =>
    rw [List.foldl_cons, ih]
    cases flag <;> rfl

theorem comma_not_mem_decimal (value : ℕ) : ',' ∉ decimal value := by
  intro hmem
  exact absurd (isDigit_of_mem_decimal hmem) (by decide)

theorem decimal_ne_comma (value : ℕ) : ∀ c ∈ decimal value, decide (c ≠ ',') = true := by
  intro c hc
  exact decide_eq_true fun hcomma => comma_not_mem_decimal value (hcomma ▸ hc)

theorem set_both (bounds : Bounds) (min max : ℕ) :
    bounds.set (RangeForm.both min max).text = ⟨decimal min, decimal max⟩ := by
  have hfirst : cutFirst (decimal min ++ ',' :: decimal max) = decimal min :=
    takeWhile_append_stop (decimal_ne_comma min) (by decide)
  have hsecond : cutSecond (decimal min ++ ',' :: decimal max) = decimal max := by
    rw [cutSecond, dropWhile_append_stop (decimal_ne_comma min) (by decide)]
    exact List.takeWhile_eq_self_iff.mpr (decimal_ne_comma max)
  rw [Bounds.set, RangeForm.text, if_pos (by simp), hfirst, hsecond]

theorem set_lower (bounds : Bounds) (min : ℕ) :
    bounds.set (RangeForm.lower min).text = { bounds with min := decimal min } :=
  if_neg (comma_not_mem_decimal min)

theorem set_upper (bounds : Bounds) (max : ℕ) :
    bounds.set (RangeForm.upper max).text = ⟨[], decimal max⟩ := by
  have hsecond : cutSecond (',' :: decimal max) = decimal max :=
    List.takeWhile_eq_self_iff.mpr (decimal_ne_comma max)
  rw [Bounds.set, RangeForm.text, if_pos List.mem_cons_self, hsecond]
  rfl

variable {ipv6 : Bool} {flags : List Flag} {target : Target} {form : Option RangeForm}

theorem fill_host (settings : Settings) (isCounter : Bool) : (settings.fill ipv6 isCounter).host =
      ⟨if settings.host.min = [] then decimal (minHostDefault isCounter)
        else settings.host.min,
      if settings.host.max = [] then decimal (maxHostDefault ipv6 isCounter)
        else settings.host.max⟩ := rfl

/-- The bounds of the host ids for at most one option. -/
theorem host_of_form (hflags : flags.filterMap hostArgument = (form.map RangeForm.text).toList) :
    (readSettings ipv6 flags target).host =
      let bounds := givenBounds (minHostDefault target.isCounter)
        (maxHostDefault ipv6 target.isCounter) form
      ⟨decimal bounds.1, decimal bounds.2⟩ := by
  rw [readSettings, fill_host, host_foldl, hflags]
  rcases form with _ | min | min | max
  · rfl
  · simp [set_both, decimal_ne_nil, givenBounds]
  · simp [set_lower, decimal_ne_nil, givenBounds, initialSettings]
  · simp [set_upper, decimal_ne_nil, givenBounds]

/-- The bounds of the network ids for at most one option that gives the lower one. -/
theorem net_of_form (hflags : flags.filterMap netArgument = (form.map RangeForm.text).toList)
    (hform : ∀ max, form ≠ some (.upper max)) :
    (readSettings ipv6 flags target).net =
      let bounds := givenBounds 0 (defaultMax ipv6) form
      ⟨decimal bounds.1, decimal bounds.2⟩ := by
  have hnet : (readSettings ipv6 flags target).net =
      (flags.filterMap netArgument).foldl Bounds.set (initialSettings ipv6).net :=
    net_foldl flags (initialSettings ipv6)
  rw [hnet, hflags]
  rcases form with _ | min | min | max
  · rfl
  · simp [set_both, givenBounds]
  · simp [set_lower, givenBounds, initialSettings]
  · exact absurd rfl (hform max)

/-- Bounds in order pass the checks. -/
theorem checkRanges_decimal {limit : ℕ} {settings : Settings} {host net : ℕ × ℕ}
    (hhost : settings.host = ⟨decimal host.1, decimal host.2⟩)
    (hnet : settings.net = ⟨decimal net.1, decimal net.2⟩)
    (hhostle : host.1 ≤ host.2) (hhostlimit : host.2 ≤ limit)
    (hnetle : net.1 ≤ net.2) (hnetlimit : net.2 ≤ limit) :
    ∃ ranges : Ranges limit, checkRanges limit settings = .ok ranges ∧
      ((ranges.minHost : ℕ), (ranges.maxHost : ℕ)) = host ∧
      ((ranges.minNet : ℕ), (ranges.maxNet : ℕ)) = net := by
  refine ⟨⟨⟨host.1, Nat.lt_succ_of_le (hhostle.trans hhostlimit)⟩,
    ⟨host.2, Nat.lt_succ_of_le hhostlimit⟩,
    ⟨net.1, Nat.lt_succ_of_le (hnetle.trans hnetlimit)⟩,
    ⟨net.2, Nat.lt_succ_of_le hnetlimit⟩, hhostle, hnetle⟩, ?_, rfl, rfl⟩
  rw [checkRanges, hhost, hnet]
  simp only [readBound_decimal hhostlimit, readBound_decimal hnetlimit,
    readBound_decimal (hhostle.trans hhostlimit), readBound_decimal (hnetle.trans hnetlimit)]
  rw [dif_pos (Fin.mk_le_mk.mpr hhostle), dif_pos (Fin.mk_le_mk.mpr hnetle)]

end Options

/-- What the comment of the function says, for counters from 1 on where addresses must
differ, and with the defaults of the bounds that are not given. -/
structure Meets (ipv6 : Bool) (unused : List Char) : Prop where
  counter_ids : ∀ flags type ranges,
    readRanges ipv6 flags (.counting type) = .ok ranges →
    (readSettings ipv6 flags (.counting type)).counter.getD 1 ≤ 2 ^ 62 →
    ∃ ids, ranges.Contains ids ∧ tstIpaddrUn ipv6 unused flags (.counting type) =
      .ok (addressText ipv6 unused (readSettings ipv6 flags (.counting type)).withPrefix
        ids.1 ids.2)
  counter_distinct : ∀ flags type flags' type' ranges counter counter',
    readRanges ipv6 flags (.counting (some type)) = .ok ranges →
    readRanges ipv6 flags' (.counting (some type')) = .ok ranges →
    (readSettings ipv6 flags (.counting (some type))).counter = some counter →
    (readSettings ipv6 flags' (.counting (some type'))).counter = some counter' →
    (readSettings ipv6 flags (.counting (some type))).withPrefix =
      (readSettings ipv6 flags' (.counting (some type'))).withPrefix →
    1 ≤ counter → 2 * counter ≤ ranges.hostRange * ranges.netRange →
    1 ≤ counter' → 2 * counter' ≤ ranges.hostRange * ranges.netRange →
    (counter, type) ≠ (counter', type') →
    tstIpaddrUn ipv6 unused flags (.counting (some type)) ≠
      tstIpaddrUn ipv6 unused flags' (.counting (some type'))
  net_host : ∀ flags netId hostId ranges,
    readRanges ipv6 flags (.ids netId hostId) = .ok ranges →
    0 ≤ netId → 0 ≤ hostId.getD 0 →
    tstIpaddrUn ipv6 unused flags (.ids netId hostId) =
      .ok (addressText ipv6 unused (readSettings ipv6 flags (.ids netId hostId)).withPrefix
        (netId % ranges.netRange + ranges.minNet)
        (hostId.getD 0 % ranges.hostRange + ranges.minHost))
  accepted : ∀ flags target hostForm netForm,
    flags.filterMap hostArgument = (hostForm.map RangeForm.text).toList →
    flags.filterMap netArgument = (netForm.map RangeForm.text).toList →
    (∀ max, netForm ≠ some (.upper max)) →
    let host := givenBounds (minHostDefault target.isCounter)
      (maxHostDefault ipv6 target.isCounter) hostForm
    let net := givenBounds 0 (defaultMax ipv6) netForm
    host.1 ≤ host.2 → host.2 ≤ defaultMax ipv6 → net.1 ≤ net.2 → net.2 ≤ defaultMax ipv6 →
    ∃ ranges, readRanges ipv6 flags target = .ok ranges ∧
      ((ranges.minHost : ℕ), (ranges.maxHost : ℕ)) = host ∧
      ((ranges.minNet : ℕ), (ranges.maxNet : ℕ)) = net

section Results

variable {ipv6 : Bool} {unused : List Char} {flags : List Flag} {target : Target}
  {ranges : Ranges (defaultMax ipv6)}

theorem tstIpaddrUn_of_ranges (hranges : readRanges ipv6 flags target = .ok ranges) :
    tstIpaddrUn ipv6 unused flags target =
      let ids := ranges.netAndHost (readSettings ipv6 flags target).counter target
      .ok (addressText ipv6 unused (readSettings ipv6 flags target).withPrefix ids.1 ids.2) := by
  rw [readRanges] at hranges
  rw [tstIpaddrUn, hranges]
  rfl

theorem defaultMax_lt (ipv6 : Bool) : defaultMax ipv6 < 2 ^ 16 := by
  cases ipv6 <;> decide

/-- There are not more ids than counters that can be doubled. -/
theorem counter_le {counter : ℤ}
    (hcounter : 2 * counter ≤ ranges.hostRange * ranges.netRange) : counter ≤ 2 ^ 62 := by
  have hbound {value : ℤ} {low high : Fin (defaultMax ipv6 + 1)}
      (hvalue : value = (high : ℕ) - (low : ℕ) + 1) : value ≤ 2 ^ 16 := by
    have hlimit := defaultMax_lt ipv6
    have hhigh := high.isLt
    omega
  have hproduct : ranges.hostRange * ranges.netRange ≤ 2 ^ 16 * 2 ^ 16 :=
    mul_le_mul (hbound rfl) (hbound rfl) ranges.netRange_pos.le (by norm_num)
  linarith

theorem numbered_lt {counter bound : ℤ} (hcounter : 2 * counter ≤ bound) (type : HostType) :
    numbered counter type < bound := by
  cases type <;> rw [numbered] <;> omega

theorem counted_of_le {counter : ℤ} (hcounter : 1 ≤ counter) : counted (some counter) = counter :=
  max_eq_left hcounter

/-- The ids of a number as natural numbers. -/
theorem Ranges.place_eq_natCast {limit : ℕ} (ranges : Ranges limit) (number : ℤ) :
    ∃ netId hostId : ℕ, ranges.place number = ((netId : ℤ), (hostId : ℤ)) := by
  obtain ⟨⟨hnet, -⟩, hhost, -⟩ := ranges.contains_place number
  refine ⟨(ranges.place number).1.toNat, (ranges.place number).2.toNat, Prod.ext ?_ ?_⟩
  · exact (Int.toNat_of_nonneg (by omega)).symm
  · exact (Int.toNat_of_nonneg (by omega)).symm

/-- Counters and ids give the addresses that the comment of the function promises. -/
theorem tstIpaddrUn_meets (ipv6 : Bool) (unused : List Char) : Meets ipv6 unused := by
  have hlimit : defaultMax ipv6 < 2 ^ 62 := (defaultMax_lt ipv6).trans (by norm_num)
  constructor
  case counter_ids =>
    intro flags type ranges hranges hcounter
    rw [tstIpaddrUn_of_ranges hranges, ranges.netAndHost_counting type hcounter hlimit]
    exact ⟨_, ranges.contains_place _, rfl⟩
  case counter_distinct =>
    intro flags type flags' type' ranges counter counter' hranges hranges' hsettings
      hsettings' hprefixes hpos hmax hpos' hmax' hne htexts
    have hle : (some counter).getD 1 ≤ 2 ^ 62 := counter_le hmax
    have hle' : (some counter').getD 1 ≤ 2 ^ 62 := counter_le hmax'
    rw [tstIpaddrUn_of_ranges hranges, tstIpaddrUn_of_ranges hranges', hsettings, hsettings',
      ranges.netAndHost_counting _ hle hlimit, ranges.netAndHost_counting _ hle' hlimit,
      counted_of_le hpos, counted_of_le hpos', hprefixes, Except.ok.injEq,
      Option.getD_some, Option.getD_some] at htexts
    obtain ⟨netId, hostId, hplace⟩ := ranges.place_eq_natCast (numbered counter type)
    obtain ⟨netId', hostId', hplace'⟩ := ranges.place_eq_natCast (numbered counter' type')
    rw [hplace, hplace'] at htexts
    obtain ⟨rfl, rfl⟩ := addressText_inj htexts
    have hnumbers := ranges.place_inj (numbered_nonneg hpos type)
      (numbered_nonneg hpos' type') (numbered_lt hmax type) (numbered_lt hmax' type')
      (hplace.trans hplace'.symm)
    obtain ⟨rfl, rfl⟩ := numbered_inj hnumbers
    exact hne rfl
  case net_host =>
    intro flags netId hostId ranges hranges hnet hhost
    rw [tstIpaddrUn_of_ranges hranges, ranges.netAndHost_ids _ hnet hhost]
  case accepted =>
    intro flags target hostForm netForm hhostflags hnetflags hform host net hhostle
      hhostlimit hnetle hnetlimit
    exact checkRanges_decimal (host_of_form hhostflags) (net_of_form hnetflags hform)
      hhostle hhostlimit hnetle hnetlimit

/-- The addresses of the remote host for the first two counters. -/
theorem tstIpaddrUn_meets_counters :
    tstIpaddrUn false "10.23".toList [.counter 1] (.counting (some .rhost)) ≠
      tstIpaddrUn false "10.23".toList [.counter 2] (.counting (some .rhost)) := by
  refine (tstIpaddrUn_meets false "10.23".toList).counter_distinct [.counter 1] .rhost
    [.counter 2] .rhost ⟨1, 254, 0, 255, by decide, by decide⟩ 1 2 ?_ ?_ rfl rfl rfl
    (by decide) (by decide) (by decide) (by decide) (by decide)
  · decide +kernel
  · decide +kernel

/-- The counters 0 and 1 give the same address, a bound of host ids can be out of order
with the default of the other one, an upper bound alone is no range of network ids, and
a counter can be too large for the arithmetic. -/
theorem tstIpaddrUn_exceptions :
    tstIpaddrUn false "10.23".toList [.counter 0] (.counting none) =
        tstIpaddrUn false "10.23".toList [.counter 1] (.counting none) ∧
      tstIpaddrUn false "10.23".toList [.host "255".toList] (.counting none) =
        .error (.hostOrder "255".toList "254".toList) ∧
      tstIpaddrUn false "10.23".toList [.net ",5".toList] (.counting none) =
        .error (.netId 255 [] "5".toList) ∧
      tstIpaddrUn false "10.23".toList [.counter (2 ^ 62 + 1)] (.counting none) =
        .ok "10.23.-64.-126".toList := by
  decide +kernel

example : tstIpaddrUn false "10.23".toList [.counter 2, .host "2,8".toList, .net "2,8".toList]
    (.counting (some .rhost)) = .ok "10.23.2.4".toList := by decide +kernel

example : tstIpaddrUn true "fd00:23".toList [] (.ids 65536 (some 65537)) =
    .ok "fd00:23::1".toList := by decide +kernel

example : tstIpaddrUn true "fd00:23".toList [.counter 32768, .host "1,65535".toList]
    (.counting none) = .ok "fd00:23:1::1".toList := by decide +kernel

end Results

end GrapheneLtp.NetShell
