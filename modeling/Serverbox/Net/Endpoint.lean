import Mathlib.Algebra.Group.Nat.Defs
import Mathlib.Data.List.Infix
import Mathlib.Data.List.TakeWhile

/-!
# Endpoints

The endpoint of a connection is a string `[protocol://]host[:port][target]`. `URLParse` splits it,
and `TCPSocketCtl::AddConnect` takes the host as an address if it can, and as a domain name to be
resolved otherwise. The addresses are printed and parsed by `inet_ntop` and `inet_pton` of the C
library, which are parameters. The strings are C strings, without their zero.

Source: `src/mg/net/URL.cpp`, `src/mg/net/Host.cpp`, `src/mg/aio/TCPSocketCtl.cpp`,
`src/mg/box/StringFunctions.cpp`.

## Main definitions

* `URL.parse`: `URLParse`.
* `Host.set`, `Host.toString`: `Host::Set` and `Host::ToString`.
* `TCPSocketCtl.addConnect`: `TCPSocketCtl::AddConnect`.
* `URL.compose`: the string with the given parts.

## Main results

* `URL.endpoint_roundTrip`: which endpoints and which composed strings are taken apart again.
-/

namespace Serverbox

/-- `std::string::find` of a string. -/
def find (pat : List Char) : List Char → Option ℕ
  | [] => if pat = [] then some 0 else none
  | c :: cs => if pat.isPrefixOf (c :: cs) then some 0 else (find pat cs).map (· + 1)

/-- `isspace`. -/
def isspace (c : Char) : Bool :=
  c = ' ' || c = '\t' || c = '\n' || c = '\x0b' || c = '\x0c' || c = '\r'

/-- `StringToNumber` for `uint64_t`: spaces, a sign `+`, and the digits up to the end. -/
def stringToNumber (str : List Char) : Option ℕ :=
  let str := str.dropWhile isspace
  let digits := if str.head? = some '+' then str.tail else str
  let res := Nat.ofDigitChars 10 digits 0
  if digits ≠ [] ∧ digits.all Char.isDigit ∧ res < 2 ^ 64 then some res else none

/-- `StringToNumber` for `uint16_t`. -/
def stringToNumber16 (str : List Char) : Option UInt16 :=
  (stringToNumber str).bind fun res => if res ≤ 65535 then some (UInt16.ofNat res) else none

/-- The conversion `%u`. -/
def printPort (port : UInt16) : List Char := Nat.toDigits 10 port.toNat

/-- `URL`. -/
structure URL where
  host : List Char
  protocol : List Char
  port : UInt16
  target : List Char
  deriving DecidableEq

namespace URL

/-- `"://"`. -/
def separator : List Char := [':', '/', '/']

/-- `URLParse`. -/
def parse (str : List Char) : URL :=
  let (protocol, str) := match find separator str with
    | some pos => (str.take pos, str.drop (pos + 3))
    | none => ([], str)
  let (target, str) := match find ['/'] str with
    | some pos => (str.drop pos, str.take pos)
    | none => ([], str)
  let (port, str) := match find [':'] str with
    | some pos => ((stringToNumber16 (str.drop (pos + 1))).getD 0, str.take pos)
    | none => (0, str)
  ⟨str, protocol, port, target⟩

/-- The string with the given parts. -/
def compose (protocol : Option (List Char)) (host : List Char) (port : Option UInt16)
    (target : Option (List Char)) : List Char :=
  (match protocol with
    | some p => p ++ separator
    | none => []) ++
  (host ++ match port with
    | some p => ':' :: printPort p
    | none => []) ++
  target.getD []

end URL

/-- `inet_ntop` and `inet_pton` for the two address families. -/
structure Inet where
  ntop4 : BitVec 32 → List Char
  pton4 : List Char → Option (BitVec 32)
  ntop6 : BitVec 128 → List Char
  pton6 : List Char → Option (BitVec 128)

/-- What the code relies on: `inet_pton` reads what `inet_ntop` prints, which is made of digits and
dots for the first family, and of hexadecimal digits, dots and at least one colon for the second
one. -/
structure Inet.Lawful (I : Inet) : Prop where
  pton4_ntop4 : ∀ a, I.pton4 (I.ntop4 a) = some a
  pton6_ntop6 : ∀ a, I.pton6 (I.ntop6 a) = some a
  ntop4_mem : ∀ a, ∀ c ∈ I.ntop4 a, c.isDigit = true ∨ c = '.'
  ntop6_mem : ∀ a, ∀ c ∈ I.ntop6 a, c.isAlphanum = true ∨ c = '.' ∨ c = ':'
  ntop6_colon : ∀ a, ':' ∈ I.ntop6 a

/-- `Host`, up to its `operator==`. -/
inductive Host
  | none
  | ipv4 (addr : BitVec 32) (port : UInt16)
  | ipv6 (addr : BitVec 128) (port : UInt16)
  deriving DecidableEq

namespace Host

/-- `theHostIPV4Len`. -/
def ipv4Len : ℕ := 16 + 6

/-- `theHostIPV6Len`. -/
def ipv6Len : ℕ := 46 + 6 + 2

/-- `IsIPV4`. -/
def isIPV4 : Host → Bool
  | ipv4 _ _ => true
  | _ => false

/-- `IsSet`. -/
def isSet : Host → Bool
  | none => false
  | _ => true

/-- `SetPort`. -/
def setPort (port : UInt16) : Host → Host
  | ipv4 addr _ => ipv4 addr port
  | ipv6 addr _ => ipv6 addr port
  | none => none

/-- `Set` of a string in brackets, without the first one. -/
def setBrackets (I : Inet) (str : List Char) : Option Host :=
  let ip := str.takeWhile (· ≠ ']')
  match str.dropWhile (· ≠ ']') with
  | [] => Option.none
  | _ :: rest =>
    if ip.length > ipv6Len then Option.none
    else (I.pton6 ip).bind fun addr => match rest with
      | [] => some (ipv6 addr 0)
      | c :: port =>
        if c = ':' then (stringToNumber16 port).map fun port => ipv6 addr port else Option.none

/-- `Set` of an address with a port, `"ipv4:port"`. -/
def setPortSuffix (I : Inet) (str : List Char) : Option Host :=
  let ip := str.takeWhile (· ≠ ':')
  match str.dropWhile (· ≠ ':') with
  | [] => Option.none
  | _ :: port =>
    if ip.length > ipv4Len then Option.none
    else (I.pton4 ip).bind fun addr => (stringToNumber16 port).map fun port => ipv4 addr port

/-- `Set` of a string; `none` when it returns false, and then the host is left alone. -/
def set (I : Inet) (str : List Char) : Option Host :=
  if str.head? = some '[' then setBrackets I str.tail
  else match I.pton4 str with
    | some addr => some (ipv4 addr 0)
    | Option.none => match I.pton6 str with
      | some addr => some (ipv6 addr 0)
      | Option.none => setPortSuffix I str

/-- `ToString`. -/
def toString (I : Inet) : Host → List Char
  | none => "none".toList
  | ipv4 addr port => I.ntop4 addr ++ ':' :: printPort port
  | ipv6 addr port => '[' :: (I.ntop6 addr ++ ']' :: ':' :: printPort port)

end Host

/-- `TCPSocketCtlConnectParams`. -/
structure TCPSocketCtlConnectParams where
  socket : Option ℕ
  endpoint : List Char
  addrFamily : ℕ
  delay : Option ℕ

/-- `TCPSocketCtlDomainRequest`, as far as `AddConnect` makes it. -/
structure TCPSocketCtlDomainRequest where
  host : List Char
  port : UInt16
  addrFamily : ℕ
  deriving DecidableEq

/-- `TCPSocketCtl`, as far as `AddConnect` reads and writes it. -/
structure TCPSocketCtl where
  hasShutdown : Bool
  hasConnect : Bool
  hasAttach : Bool
  connectIsStarted : Bool
  connectHost : Host
  connectDomain : Option TCPSocketCtlDomainRequest
  connectSocket : Option ℕ
  connectDelay : Option ℕ

namespace TCPSocketCtl

/-- The assertions at the beginning of `AddConnect`. -/
def mayConnect (s : TCPSocketCtl) : Bool :=
  !s.hasConnect && !s.hasAttach && !s.hasShutdown && s.connectSocket.isNone &&
    s.connectDomain.isNone && !s.connectIsStarted

/-- `AddConnect`. -/
def addConnect (I : Inet) (s : TCPSocketCtl) (params : TCPSocketCtlConnectParams) :
    TCPSocketCtl :=
  let s := { s with
    hasConnect := true
    connectSocket := params.socket
    connectDelay := params.delay }
  let url := URL.parse params.endpoint
  match Host.set I url.host with
  | some host => { s with connectHost := host.setPort url.port }
  | none => { s with connectDomain := some ⟨url.host, url.port, params.addrFamily⟩ }

end TCPSocketCtl

section Find

variable {pat s t : List Char} {c : Char} {n : ℕ}

theorem find_nil (hpat : pat ≠ []) : find pat [] = none := by
  rw [find, if_neg hpat]

theorem find_cons_of_prefix (h : pat.isPrefixOf (c :: s) = true) : find pat (c :: s) = some 0 := by
  rw [find, if_pos h]

theorem find_cons_of_apart (h : ¬ pat <+: c :: s) :
    find pat (c :: s) = (find pat s).map (· + 1) := by
  rw [find, if_neg]
  rwa [List.isPrefixOf_iff_prefix]

/-- A string which contains the pattern has a first place of it, in which it fits. -/
theorem exists_find (hpat : pat ≠ []) (h : pat <:+: s) :
    ∃ n, find pat s = some n ∧ n + pat.length ≤ s.length := by
  induction s with
  | nil => exact absurd (List.infix_nil.mp h) hpat
  | cons c s ih =>
    by_cases hp : pat <+: c :: s
    · refine ⟨0, find_cons_of_prefix (List.isPrefixOf_iff_prefix.mpr hp), ?_⟩
      simpa using hp.length_le
    · obtain ⟨n, hn, hle⟩ := ih ((List.infix_cons_iff.mp h).resolve_left hp)
      refine ⟨n + 1, by rw [find_cons_of_apart hp, hn]; rfl, ?_⟩
      rw [List.length_cons]
      omega

theorem find_eq_none (hpat : pat ≠ []) (h : ¬ pat <:+: s) : find pat s = none := by
  induction s with
  | nil => exact find_nil hpat
  | cons c s ih =>
    have hp : ¬ pat <+: c :: s := fun hp => h hp.isInfix
    rw [find_cons_of_apart hp, ih fun hs => h (List.infix_cons_iff.mpr (.inr hs))]
    rfl

/-- The first place does not depend on what follows. -/
theorem find_append (hpat : pat ≠ []) (h : find pat s = some n) : find pat (s ++ t) = some n := by
  induction s generalizing n with
  | nil =>
    rw [find_nil hpat] at h
    cases h
  | cons c s ih =>
    rw [List.cons_append]
    by_cases hp : pat <+: c :: s
    · have h₀ : find pat (c :: s) = some 0 :=
        find_cons_of_prefix (List.isPrefixOf_iff_prefix.mpr hp)
      rw [h₀] at h
      cases h
      refine find_cons_of_prefix (List.isPrefixOf_iff_prefix.mpr ?_)
      exact hp.trans (List.prefix_append (c :: s) t)
    · rw [find_cons_of_apart hp, Option.map_eq_some_iff] at h
      obtain ⟨m, hm, rfl⟩ := h
      by_cases hp' : pat <+: c :: (s ++ t)
      · -- the pattern is found in the string itself, so it fits into the string
        obtain ⟨k, hk, hle⟩ : ∃ k, find pat s = some k ∧ k + pat.length ≤ s.length := by
          have : pat <:+: s := by
            by_contra hno
            have hnone : find pat s = none := find_eq_none hpat hno
            rw [hm] at hnone
            cases hnone
          exact exists_find hpat this
        refine absurd ?_ hp
        refine List.prefix_of_prefix_length_le hp' (List.prefix_append (c :: s) t) ?_
        rw [List.length_cons]
        omega
      · rw [find_cons_of_apart hp', ih hm]
        rfl

/-- A character is found behind a string without it. -/
theorem find_char {q : List Char} (h : c ∉ q) : find [c] (q ++ c :: t) = some q.length := by
  induction q with
  | nil => exact find_cons_of_prefix (by simp [List.isPrefixOf])
  | cons d q ih =>
    obtain ⟨hd, hq⟩ := not_or.mp (mt List.mem_cons.mpr h)
    have hp : ¬ [c] <+: d :: (q ++ c :: t) := by simpa using hd
    rw [List.cons_append, find_cons_of_apart hp, ih hq]
    rfl

theorem find_char_eq_none {q : List Char} (h : c ∉ q) : find [c] q = none :=
  find_eq_none (List.cons_ne_nil c []) fun hq => h (hq.subset (List.mem_singleton_self c))

end Find

namespace URL

variable {p q t host target : List Char}

theorem separator_ne_nil : separator ≠ [] := List.cons_ne_nil _ _

/-- The separator is found behind a string without it. -/
theorem find_separator (h : ¬ separator <:+: p) :
    find separator (p ++ (separator ++ t)) = some p.length := by
  induction p with
  | nil =>
    exact find_cons_of_prefix (List.isPrefixOf_iff_prefix.mpr (List.prefix_append separator t))
  | cons c p ih =>
    have hp : ¬ separator <+: c :: (p ++ (separator ++ t)) := by
      intro hp
      -- the separator does not overlap with itself
      match p with
      | [] => simp [separator] at hp
      | [d] => simp [separator] at hp
      | d :: e :: p =>
        have : separator <+: c :: d :: e :: p := by
          simp only [separator, List.cons_append, List.cons_prefix_cons] at hp ⊢
          exact ⟨hp.1, hp.2.1, hp.2.2.1, List.nil_prefix⟩
        exact h this.isInfix
    rw [List.cons_append, find_cons_of_apart hp,
      ih fun hs => h (List.infix_cons_iff.mpr (.inr hs))]
    rfl

/-- The separator is not found across the end of a string without slashes. -/
theorem find_separator_eq_none (hslash : '/' ∉ q) (hlast : q.getLast? ≠ some ':')
    (h : ¬ separator <:+: t) : find separator (q ++ t) = none := by
  induction q with
  | nil => exact find_eq_none separator_ne_nil h
  | cons c q ih =>
    obtain ⟨-, hq⟩ := not_or.mp (mt List.mem_cons.mpr hslash)
    have hp : ¬ separator <+: c :: (q ++ t) := by
      intro hp
      match q with
      | [] =>
        simp only [separator, List.cons_prefix_cons] at hp
        simp [← hp.1] at hlast
      | d :: q =>
        simp only [separator, List.cons_append, List.cons_prefix_cons] at hp
        exact hq (hp.2.1 ▸ List.mem_cons_self)
    rw [List.cons_append, find_cons_of_apart hp, ih hq]
    · rfl
    · cases q with
      | nil => simp
      | cons d q => rwa [List.getLast?_cons_cons] at hlast

/-- The digits of a port are read again. -/
theorem stringToNumber16_printPort (port : UInt16) :
    stringToNumber16 (printPort port) = some port := by
  have hdigit : ∀ c ∈ printPort port, c.isDigit = true := fun c hc =>
    Nat.isDigit_of_mem_toDigits (by decide) (by decide) hc
  obtain ⟨c, l, hl⟩ := List.exists_cons_of_ne_nil (Nat.toDigits_ne_nil (n := port.toNat) (b := 10))
  have hc : c.isDigit = true := hdigit c (by rw [printPort, hl]; exact List.mem_cons_self)
  have hspace : isspace c = false := by
    by_contra hs
    simp only [isspace, Bool.not_eq_false, Bool.or_eq_true, decide_eq_true_eq] at hs
    rcases hs with ((((rfl | rfl) | rfl) | rfl) | rfl) | rfl <;> revert hc <;> decide
  have hplus : c ≠ '+' := by
    rintro rfl
    revert hc
    decide
  have hlt : port.toNat < 65536 := port.toNat_lt
  have hnumber : stringToNumber (printPort port) = some port.toNat := by
    have hdrop : (printPort port).dropWhile isspace = printPort port := by
      rw [printPort, hl, List.dropWhile_cons_of_neg (by simp [hspace])]
    have hhead : (printPort port).head? ≠ some '+' := by
      rw [printPort, hl]
      simpa using hplus
    have hne : printPort port ≠ [] := Nat.toDigits_ne_nil
    have hall : (printPort port).all Char.isDigit = true := List.all_eq_true.mpr hdigit
    have hval : Nat.ofDigitChars 10 (printPort port) 0 = port.toNat := Nat.ofDigitChars_ten_toDigits
    rw [stringToNumber]
    simp only [hdrop, if_neg hhead, hval, hall, true_and]
    rw [if_pos ⟨hne, by omega⟩]
  rw [stringToNumber16, hnumber, Option.bind_some, if_pos (by omega), UInt16.ofNat_toNat]

/-- The host with its port, in an endpoint. -/
def authority (host : List Char) (port : Option UInt16) : List Char :=
  host ++ match port with
    | some p => ':' :: printPort p
    | none => []

theorem authority_none (host : List Char) : authority host none = host := List.append_nil _

theorem authority_some (host : List Char) (p : UInt16) :
    authority host (some p) = host ++ ':' :: printPort p := rfl

theorem slash_notMem_printPort (port : UInt16) : '/' ∉ printPort port := fun h => by
  have := Nat.isDigit_of_mem_toDigits (by decide) (by decide) h
  revert this
  decide

variable {port : Option UInt16}

theorem slash_notMem_authority (h : '/' ∉ host) : '/' ∉ authority host port := by
  cases port with
  | none => rwa [authority_none]
  | some p =>
    rw [authority_some, List.mem_append, not_or]
    exact ⟨h, mt List.mem_cons.mp (not_or.mpr ⟨by decide, slash_notMem_printPort p⟩)⟩

theorem getLast?_authority (h : ':' ∉ host) : (authority host port).getLast? ≠ some ':' := by
  intro hlast
  cases port with
  | none =>
    rw [authority_none] at hlast
    exact h (List.mem_of_getLast? hlast)
  | some p =>
    have hne : printPort p ≠ [] := Nat.toDigits_ne_nil
    obtain ⟨c, l, hl⟩ := List.exists_cons_of_ne_nil hne
    rw [authority_some, hl, List.getLast?_append_of_ne_nil _ (List.cons_ne_nil _ _),
      List.getLast?_cons_cons, ← hl] at hlast
    have := Nat.isDigit_of_mem_toDigits (by decide) (by decide) (List.mem_of_getLast? hlast)
    revert this
    decide

/-- The rest of `URLParse` after the protocol. -/
theorem parse_of_find {str : List Char} (hprotocol :
    (match find separator str with
      | some pos => (str.take pos, str.drop (pos + 3))
      | none => ([], str)) = (p, authority host port ++ target))
    (hcolon : ':' ∉ host) (hslash : '/' ∉ host) (htarget : target = [] ∨ target.head? = some '/') :
    parse str = ⟨host, p, port.getD 0, target⟩ := by
  have hauth : '/' ∉ authority host port := slash_notMem_authority hslash
  have hsplit : (match find ['/'] (authority host port ++ target) with
      | some pos => ((authority host port ++ target).drop pos,
          (authority host port ++ target).take pos)
      | none => ([], authority host port ++ target)) = (target, authority host port) := by
    rcases htarget with rfl | hhead
    · rw [List.append_nil, find_char_eq_none hauth]
    · obtain ⟨t, rfl⟩ : ∃ t, target = '/' :: t := by
        cases target with
        | nil => cases hhead
        | cons c t => exact ⟨t, by simp at hhead; rw [hhead]⟩
      rw [find_char hauth]
      simp
  have hport : (match find [':'] (authority host port) with
      | some pos => ((stringToNumber16 ((authority host port).drop (pos + 1))).getD 0,
          (authority host port).take pos)
      | none => (0, authority host port)) = (port.getD 0, host) := by
    cases port with
    | none =>
      rw [authority_none, find_char_eq_none hcolon]
      rfl
    | some n =>
      rw [authority_some, find_char hcolon]
      have hdrop : (host ++ ':' :: printPort n).drop (host.length + 1) = printPort n := by
        rw [List.drop_append]
        simp
      simp only [hdrop, stringToNumber16_printPort, List.take_left']
  unfold parse
  simp only [hprotocol, hsplit, hport]

/-- The host of a string without slashes ends at the first colon. -/
theorem parse_host {str : List Char} (hslash : '/' ∉ str) (hstr : str = q ++ ':' :: t)
    (hcolon : ':' ∉ q) : (parse str).host = q := by
  have hsep : find separator str = none := find_eq_none separator_ne_nil fun hs =>
    hslash (hs.subset (by decide))
  unfold parse
  simp only [hsep, find_char_eq_none hslash]
  rw [hstr, find_char hcolon]
  simp

/-- The condition under which the composed string is taken apart again. -/
def Unambiguous (protocol target : Option (List Char)) : Prop :=
  match protocol with
  | some p => ¬ separator <:+: p
  | none => ¬ separator <:+: target.getD []

variable {protocol target' : Option (List Char)}

theorem compose_eq : compose protocol host port target' =
    (match protocol with
      | some p => p ++ separator
      | none => []) ++ (authority host port ++ target'.getD []) :=
  List.append_assoc _ _ _

/-- A composed string is taken apart again when the first separator in it is that of the
protocol. -/
theorem parse_compose (hcolon : ':' ∉ host) (hslash : '/' ∉ host)
    (htarget : ∀ t, target' = some t → t.head? = some '/') (h : Unambiguous protocol target') :
    parse (compose protocol host port target') =
      ⟨host, protocol.getD [], port.getD 0, target'.getD []⟩ := by
  have ht : target'.getD [] = [] ∨ (target'.getD []).head? = some '/' := by
    cases target' with
    | none => exact .inl rfl
    | some t => exact .inr (htarget t rfl)
  refine parse_of_find ?_ hcolon hslash ht
  rw [compose_eq]
  cases protocol with
  | none =>
    simp only [List.nil_append]
    rw [find_separator_eq_none (slash_notMem_authority hslash) (getLast?_authority hcolon) h]
    rfl
  | some p =>
    simp only [List.append_assoc]
    rw [find_separator h]
    simp [separator]

/-- The separator inside of the protocol, or of the target when there is no protocol, ends the
protocol too early. -/
theorem protocol_ne (hne : host ≠ []) (hcolon : ':' ∉ host) (h : ¬ Unambiguous protocol target') :
    (parse (compose protocol host port target')).protocol ≠ protocol.getD [] := by
  have hparse : ∀ {str : List Char} {n}, find separator str = some n →
      (parse str).protocol = str.take n := fun hn => by
    unfold parse
    simp only [hn]
  cases protocol with
  | some p =>
    obtain ⟨n, hn, hle⟩ := exists_find separator_ne_nil (not_not.mp h)
    rw [compose_eq]
    simp only [List.append_assoc]
    rw [hparse (find_append separator_ne_nil hn)]
    intro he
    have hlen := congrArg List.length he
    have hlt : n < p.length := by
      simp only [separator, List.length_cons, List.length_nil] at hle
      omega
    simp only [List.length_take, List.length_append, Option.getD_some] at hlen
    omega
  | none =>
    have hinfix : separator <:+: authority host port ++ target'.getD [] :=
      (not_not.mp h).trans (List.suffix_append _ _).isInfix
    obtain ⟨n, hn, hle⟩ := exists_find separator_ne_nil hinfix
    rw [compose_eq]
    simp only [List.nil_append]
    rw [hparse hn]
    obtain ⟨c, l, rfl⟩ := List.exists_cons_of_ne_nil hne
    have hauth : ∃ rest, authority (c :: l) port ++ target'.getD [] = c :: rest := by
      cases port with
      | none => exact ⟨_, by rw [authority_none]; rfl⟩
      | some p => exact ⟨_, by rw [authority_some]; rfl⟩
    obtain ⟨rest, hrest⟩ := hauth
    rw [hrest] at hn hle ⊢
    have hn' : n ≠ 0 := by
      rintro rfl
      -- the host does not begin with a colon
      have hp : ¬ separator <+: c :: rest := fun hp => by
        rw [separator, List.cons_prefix_cons] at hp
        exact hcolon (hp.1 ▸ List.mem_cons_self)
      rw [find_cons_of_apart hp, Option.map_eq_some_iff] at hn
      obtain ⟨m, -, hm⟩ := hn
      cases hm
    intro he
    have hlen := congrArg List.length he
    simp only [List.length_take, Option.getD_none, List.length_nil] at hlen
    omega

end URL

namespace TCPSocketCtl

variable {I : Inet} {s : TCPSocketCtl} {params : TCPSocketCtlConnectParams} {h : Host}

/-- The endpoint of a host of the first family is connected without a resolution. -/
theorem addConnect_ipv4 (hI : I.Lawful) {addr : BitVec 32} {port : UInt16}
    (hs : s.mayConnect = true) (hp : params.endpoint = (Host.ipv4 addr port).toString I) :
    (s.addConnect I params).connectHost = .ipv4 addr port ∧
      (s.addConnect I params).connectDomain = none := by
  have hdigit : ∀ c ∈ I.ntop4 addr, c ≠ ':' ∧ c ≠ '/' ∧ c ≠ '[' := fun c hc => by
    rcases hI.ntop4_mem addr c hc with hd | rfl
    · refine ⟨?_, ?_, ?_⟩ <;> rintro rfl <;> revert hd <;> decide
    · decide
  have hcolon : ':' ∉ I.ntop4 addr := fun hc => (hdigit _ hc).1 rfl
  have hslash : '/' ∉ I.ntop4 addr := fun hc => (hdigit _ hc).2.1 rfl
  have hbracket : (I.ntop4 addr).head? ≠ some '[' := fun hc =>
    (hdigit _ (List.mem_of_head? hc)).2.2 rfl
  have hurl : URL.parse params.endpoint = ⟨I.ntop4 addr, [], port, []⟩ := by
    have hinfix : ¬ URL.separator <:+: [] := fun hc =>
      URL.separator_ne_nil (List.infix_nil.mp hc)
    have hparse : URL.parse (URL.compose none (I.ntop4 addr) (some port) none) =
        ⟨I.ntop4 addr, [], port, []⟩ :=
      URL.parse_compose hcolon hslash nofun hinfix
    rw [URL.compose_eq] at hparse
    simpa [hp, Host.toString, URL.authority_some] using hparse
  have hset : Host.set I (I.ntop4 addr) = some (.ipv4 addr 0) := by
    rw [Host.set, if_neg hbracket]
    simp only [hI.pton4_ntop4]
  have hdomain : s.connectDomain = none := by
    simp only [mayConnect, Bool.and_eq_true, Option.isNone_iff_eq_none] at hs
    exact hs.1.2
  unfold addConnect
  simp only [hurl, hset]
  exact ⟨rfl, hdomain⟩

/-- The host of the endpoint ends at the first colon of the address of the second family, and it
is taken as a domain name. -/
theorem addConnect_ipv6 (hI : I.Lawful) {addr : BitVec 128} {port : UInt16}
    (hp : params.endpoint = (Host.ipv6 addr port).toString I) :
    (s.addConnect I params).connectDomain ≠ none := by
  obtain ⟨q, t, hqt, hq⟩ := List.eq_append_cons_of_mem (hI.ntop6_colon addr)
  have hchar : ∀ c ∈ I.ntop6 addr, c ≠ '/' ∧ c ≠ ']' := fun c hc => by
    rcases hI.ntop6_mem addr c hc with ha | rfl | rfl
    · constructor <;> rintro rfl <;> revert ha <;> decide
    · decide
    · decide
  have hslash : '/' ∉ params.endpoint := by
    rw [hp, Host.toString]
    intro hc
    simp only [List.mem_cons, List.mem_append, Char.reduceEq, false_or] at hc
    rcases hc with hc | hc
    · exact (hchar _ hc).1 rfl
    · exact URL.slash_notMem_printPort port hc
  have hhost : (URL.parse params.endpoint).host = '[' :: q := by
    refine URL.parse_host (t := t ++ ']' :: ':' :: printPort port) hslash ?_
      (mt List.mem_cons.mp (not_or.mpr ⟨by decide, hq⟩))
    rw [hp, Host.toString, hqt]
    simp
  have hset : Host.set I ('[' :: q) = none := by
    have hdrop : q.dropWhile (· ≠ ']') = [] := List.dropWhile_eq_nil_iff.mpr fun c hc => by
      simpa using (hchar c (by rw [hqt]; exact List.mem_append_left _ hc)).2
    rw [Host.set, if_pos (by rfl), Host.setBrackets, List.tail_cons, hdrop]
  unfold addConnect
  simp only [hhost, hset]
  exact Option.some_ne_none _

end TCPSocketCtl

namespace URL

/-- **Endpoints.** For every host with an address, the endpoint which `ToString` prints is
connected to this host without a resolution if and only if the address is of the first family. For
all parts, the string composed of them is taken apart into the same parts if and only if the first
separator in it is that of the protocol: the protocol does not contain one, nor does the target
when there is no protocol. -/
theorem endpoint_roundTrip (I : Inet) (hI : I.Lawful) :
    (∀ (h : Host) (s : TCPSocketCtl) (params : TCPSocketCtlConnectParams), h.isSet = true →
      s.mayConnect = true → params.endpoint = h.toString I →
      ((s.addConnect I params).connectHost = h ∧ (s.addConnect I params).connectDomain = none ↔
        h.isIPV4 = true)) ∧
    ∀ (protocol : Option (List Char)) (host : List Char) (port : Option UInt16)
      (target : Option (List Char)), host ≠ [] → ':' ∉ host → '/' ∉ host →
      (∀ t, target = some t → t.head? = some '/') →
      (parse (compose protocol host port target) =
          ⟨host, protocol.getD [], port.getD 0, target.getD []⟩ ↔
        Unambiguous protocol target) := by
  constructor
  · intro h s params hset hmay hp
    cases h with
    | none => cases hset
    | ipv4 addr port =>
      exact ⟨fun _ => rfl, fun _ => TCPSocketCtl.addConnect_ipv4 hI hmay hp⟩
    | ipv6 addr port =>
      exact ⟨fun hc => absurd hc.2 (TCPSocketCtl.addConnect_ipv6 hI hp), nofun⟩
  · intro protocol host port target hne hcolon hslash htarget
    refine ⟨fun hparse => ?_, parse_compose hcolon hslash htarget⟩
    by_contra h
    exact protocol_ne hne hcolon h (congrArg URL.protocol hparse)

end URL

namespace Inet

/-- A round of the reading of an address of the first family: the numbers before the last dot, and
the one behind it. -/
def readDot (acc : ℕ × ℕ) (c : Char) : ℕ × ℕ :=
  if c = '.' then (acc.1 * 256 + acc.2, 0) else (acc.1, 10 * acc.2 + (c.toNat - '0'.toNat))

/-- The bytes of an address in decimal digits, with dots between them. -/
def printDots (a : BitVec 32) : List Char :=
  Nat.toDigits 10 (a.toNat / 2 ^ 24) ++ ('.' :: (Nat.toDigits 10 (a.toNat / 2 ^ 16 % 256) ++
    ('.' :: (Nat.toDigits 10 (a.toNat / 2 ^ 8 % 256) ++ ('.' :: Nat.toDigits 10 (a.toNat % 256))))))

/-- The address which is printed as a string with dots. -/
def readDots (str : List Char) : BitVec 32 :=
  let acc := str.foldl readDot (0, 0)
  BitVec.ofNat 32 (acc.1 * 256 + acc.2)

theorem foldl_readDot_digits (n acc : ℕ) (t : List Char) :
    (Nat.toDigits 10 n ++ t).foldl readDot (acc, 0) = t.foldl readDot (acc, n) := by
  have hfold : ∀ (l : List Char) (cur : ℕ), (∀ c ∈ l, c.isDigit = true) →
      l.foldl readDot (acc, cur) = (acc, Nat.ofDigitChars 10 l cur) := fun l => by
    induction l with
    | nil => exact fun cur _ => by simp
    | cons c l ih =>
      intro cur hl
      have hc : c ≠ '.' := by
        rintro rfl
        have := hl '.' List.mem_cons_self
        revert this
        decide
      rw [List.foldl_cons, readDot, if_neg hc, ih _ fun d hd => hl d (List.mem_cons_of_mem _ hd),
        Nat.ofDigitChars_cons]
  rw [List.foldl_append,
    hfold _ _ fun c hc => Nat.isDigit_of_mem_toDigits (by decide) (by decide) hc,
    Nat.ofDigitChars_ten_toDigits]

theorem readDots_printDots (a : BitVec 32) : readDots (printDots a) = a := by
  have hlast : ∀ n acc, (Nat.toDigits 10 n).foldl readDot (acc, 0) = (acc, n) := fun n acc => by
    have := foldl_readDot_digits n acc []
    rwa [List.append_nil] at this
  have hdot : ∀ acc n (t : List Char), ('.' :: t).foldl readDot (acc, n) =
      t.foldl readDot (acc * 256 + n, 0) := fun acc n t => by
    rw [List.foldl_cons, readDot, if_pos rfl]
  rw [readDots, printDots, foldl_readDot_digits, hdot, foldl_readDot_digits, hdot,
    foldl_readDot_digits, hdot, hlast]
  apply BitVec.eq_of_toNat_eq
  have := a.isLt
  simp only [BitVec.toNat_ofNat]
  omega

/-- A hexadecimal digit. -/
def hexDigit (n : ℕ) : Char := Nat.digitChar (n % 16)

/-- The value of a hexadecimal digit. -/
def hexValue (c : Char) : ℕ := if c.isDigit then c.toNat - '0'.toNat else c.toNat - 'a'.toNat + 10

/-- The last hexadecimal digits of a number. -/
def nibbles : ℕ → ℕ → List Char
  | 0, _ => []
  | k + 1, n => nibbles k (n / 16) ++ [hexDigit n]

/-- A colon after each four characters. -/
def colons : List Char → List Char
  | a :: b :: c :: d :: e :: t => a :: b :: c :: d :: ':' :: colons (e :: t)
  | t => t

/-- The address which is printed as a string with colons. -/
def readColons (str : List Char) : BitVec 128 :=
  BitVec.ofNat 128 ((str.filter (· ≠ ':')).foldl (fun acc c => 16 * acc + hexValue c) 0)

theorem hexDigit_spec (n : ℕ) : hexValue (hexDigit n) = n % 16 ∧ (hexDigit n).isAlphanum = true ∧
    hexDigit n ≠ ':' := by
  have : ∀ m < 16, hexValue (Nat.digitChar m) = m ∧ (Nat.digitChar m).isAlphanum = true ∧
      Nat.digitChar m ≠ ':' := by decide
  exact this (n % 16) (Nat.mod_lt _ (by decide))

theorem foldl_nibbles (k n : ℕ) :
    (nibbles k n).foldl (fun acc c => 16 * acc + hexValue c) 0 = n % 16 ^ k := by
  induction k generalizing n with
  | zero => simp [nibbles, Nat.mod_one]
  | succ k ih =>
    rw [nibbles, List.foldl_append, ih, List.foldl_cons, List.foldl_nil, (hexDigit_spec n).1,
      Nat.pow_succ', Nat.mod_mul]
    omega

theorem nibbles_mem {k n : ℕ} {c : Char} (h : c ∈ nibbles k n) :
    c.isAlphanum = true ∧ c ≠ ':' := by
  induction k generalizing n with
  | zero => cases h
  | succ k ih =>
    rw [nibbles, List.mem_append, List.mem_singleton] at h
    rcases h with h | rfl
    · exact ih h
    · exact (hexDigit_spec n).2

theorem filter_colons (l : List Char) (hl : ∀ c ∈ l, c ≠ ':') :
    (colons l).filter (· ≠ ':') = l := by
  fun_induction colons l with
  | case1 a b c d e t ih =>
    have ht : ∀ c ∈ e :: t, c ≠ ':' := fun x hx => hl x (by simp at hx ⊢; tauto)
    simp only [List.mem_cons, forall_eq_or_imp] at hl
    obtain ⟨ha, hb, hc, hd, -⟩ := hl
    simp only [List.filter_cons, ne_eq, ha, hb, hc, hd, not_false_eq_true, decide_true, if_true]
    rw [show (colons (e :: t)).filter (fun c => decide ¬c = ':') = e :: t from ih ht]
    simp
  | case2 t h => exact List.filter_eq_self.mpr fun c hc => by simpa using hl c hc

theorem length_nibbles (k n : ℕ) : (nibbles k n).length = k := by
  induction k generalizing n with
  | zero => rfl
  | succ k ih => rw [nibbles, List.length_append, ih, List.length_singleton]

theorem colon_mem_colons {l : List Char} (h : 4 < l.length) : ':' ∈ colons l := by
  match l with
  | a :: b :: c :: d :: e :: t => simp [colons]
  | [] | [_] | [_, _] | [_, _, _] | [_, _, _, _] => simp at h

/-- An address of the second family is printed without the compression of zeros. -/
def printColons (a : BitVec 128) : List Char := colons (nibbles 32 a.toNat)

/-- A string which was printed from an address of the first family is read. -/
def parseDots (str : List Char) : Option (BitVec 32) :=
  if printDots (readDots str) = str then some (readDots str) else none

/-- A string which was printed from an address of the second family is read. -/
def parseColons (str : List Char) : Option (BitVec 128) :=
  if printColons (readColons str) = str then some (readColons str) else none

/-- Printing and parsing, up to the compression of zeros. -/
def sample : Inet := ⟨printDots, parseDots, printColons, parseColons⟩

theorem readColons_printColons (a : BitVec 128) : readColons (printColons a) = a := by
  rw [readColons, printColons, filter_colons _ fun c hc => (nibbles_mem hc).2, foldl_nibbles]
  apply BitVec.eq_of_toNat_eq
  have := a.isLt
  rw [BitVec.toNat_ofNat]
  omega

theorem printDots_mem {a : BitVec 32} {c : Char} (hc : c ∈ printDots a) :
    c.isDigit = true ∨ c = '.' := by
  have hdigit : ∀ n, c ∈ Nat.toDigits 10 n → c.isDigit = true := fun n =>
    Nat.isDigit_of_mem_toDigits (by decide) (by decide)
  simp only [printDots, List.mem_append, List.mem_cons] at hc
  rcases hc with hc | rfl | hc | rfl | hc | rfl | hc
  · exact .inl (hdigit _ hc)
  · exact .inr rfl
  · exact .inl (hdigit _ hc)
  · exact .inr rfl
  · exact .inl (hdigit _ hc)
  · exact .inr rfl
  · exact .inl (hdigit _ hc)

theorem printColons_mem {a : BitVec 128} {c : Char} (hc : c ∈ printColons a) :
    c.isAlphanum = true ∨ c = '.' ∨ c = ':' := by
  by_cases hcolon : c = ':'
  · exact .inr (.inr hcolon)
  · have hmem : c ∈ (printColons a).filter (· ≠ ':') :=
      List.mem_filter.mpr ⟨hc, by simpa using hcolon⟩
    rw [printColons, filter_colons _ fun c hc => (nibbles_mem hc).2] at hmem
    exact .inl (nibbles_mem hmem).1

theorem colon_mem_printColons (a : BitVec 128) : ':' ∈ printColons a :=
  colon_mem_colons (by rw [length_nibbles]; decide)

theorem parseDots_printDots (a : BitVec 32) : parseDots (printDots a) = some a := by
  have hread := readDots_printDots a
  unfold parseDots
  split
  · rw [hread]
  · rename_i hne
    exact absurd (congrArg printDots hread) hne

theorem parseColons_printColons (a : BitVec 128) : parseColons (printColons a) = some a := by
  have hread := readColons_printColons a
  unfold parseColons
  split
  · rw [hread]
  · rename_i hne
    exact absurd (congrArg printColons hread) hne

theorem sample_lawful : sample.Lawful := by
  refine ⟨fun a => ?_, fun a => ?_, fun a c hc => ?_, fun a c hc => ?_, fun a => ?_⟩
  · dsimp only [sample]
    exact parseDots_printDots a
  · dsimp only [sample]
    exact parseColons_printColons a
  · exact printDots_mem hc
  · dsimp only [sample] at hc
    exact printColons_mem hc
  · dsimp only [sample]
    exact colon_mem_printColons a

end Inet

namespace URL

/-- A control message which was just created, and the parameters with an endpoint. -/
def sampleCtl : TCPSocketCtl := ⟨false, false, false, false, .none, none, none, none⟩

/-- The parameters with an endpoint. -/
def sampleParams (endpoint : List Char) : TCPSocketCtlConnectParams := ⟨none, endpoint, 0, none⟩

/-- The local host with a port, and a string with all the parts. -/
theorem endpoint_roundTrip_sample :
    (sampleCtl.addConnect Inet.sample
        (sampleParams ((Host.ipv4 0x7f000001 80).toString Inet.sample))).connectHost =
      .ipv4 0x7f000001 80 ∧
    parse (compose (some "http".toList) "host".toList (some 443) (some "/a://b".toList)) =
      ⟨"host".toList, "http".toList, 443, "/a://b".toList⟩ :=
  ⟨(((endpoint_roundTrip Inet.sample Inet.sample_lawful).1 (.ipv4 0x7f000001 80) sampleCtl
      (sampleParams _) rfl rfl rfl).mpr rfl).1,
    ((endpoint_roundTrip Inet.sample Inet.sample_lawful).2 (some "http".toList) "host".toList
      (some 443) (some "/a://b".toList) (by decide) (by decide) (by decide) (by simp)).mpr
      (by
        unfold Unambiguous
        decide)⟩

/-- The endpoint of a host of the second family is taken for a domain name, which begins with a
bracket. -/
theorem endpoint_ipv6_lost :
    (sampleCtl.addConnect Inet.sample (sampleParams ((Host.ipv6
        0x4da33ba5c2aeec29fce21b6846db3caa 80).toString Inet.sample))).connectDomain =
      some ⟨"[4da3".toList, 0, 0⟩ := by
  decide +kernel

end URL

end Serverbox
