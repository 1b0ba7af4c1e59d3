import Serverbox.Net.Endpoint

/-!
# Addresses as texts

`Host` is a union of the socket addresses of the two families. `Set` of a string takes it apart and
writes the members only when nothing can fail any more; `ToString` prints the address into a buffer
of a fixed size and the whole text into a buffer which is measured first. `operator==` compares the
members which make an address, in the order of bytes of the network.

The texts are given by a grammar, `Host.Denotes`, whose parameter says how a port is written:
`StringToNumber` takes spaces and a sign `+` before the digits.

Source: `src/mg/net/Host.h`, `src/mg/net/Host.cpp`, `src/mg/box/StringFunctions.cpp`.

## Main definitions

* `Inet.Documented`: what the manual says about the strings which `inet_pton` accepts.
* `Host.Raw`: the members, with `Host.Raw.set`, `Host.Raw.toString` and `Host.Raw.equal`.
* `Host.Denotes`: the grammar of the texts and the hosts which they denote.

## Main results

* `Host.Raw.set_iff`: `Set` takes exactly the texts of the grammar, and a failure changes nothing.
* `Host.Raw.set_toString`: a printed host is read again, and it fits into the buffers.
-/

namespace Serverbox

/-- `HtoNs` and `NtoHs`. -/
def htons (value : UInt16) : UInt16 :=
  UInt16.ofNat (value.toNat % 256 * 256 + value.toNat / 256)

theorem toNat_htons (value : UInt16) :
    (htons value).toNat = value.toNat % 256 * 256 + value.toNat / 256 := by
  have hlt : value.toNat < 65536 := value.toNat_lt
  rw [htons, UInt16.toNat_ofNat', Nat.mod_eq_of_lt]
  omega

@[simp] theorem htons_htons (value : UInt16) : htons (htons value) = value := by
  have hlt : value.toNat < 65536 := value.toNat_lt
  apply UInt16.toNat_inj.mp
  rw [toNat_htons, toNat_htons]
  omega

@[simp] theorem htons_zero : htons 0 = 0 := by decide

theorem htons_injective {a b : UInt16} (h : htons a = htons b) : a = b := by
  rw [← htons_htons a, h, htons_htons]

/-- What the manual of `inet_pton` says about the strings which it accepts. They are not longer than
`INET_ADDRSTRLEN` and `INET6_ADDRSTRLEN` with a zero; those of the first family are numbers with
dots between them, those of the second family are hexadecimal numbers with colons between them, and
the last of them may be an address of the first family. -/
structure Inet.Documented (I : Inet) : Prop where
  pton4_mem : ∀ s a, I.pton4 s = some a → ∀ c ∈ s, c.isDigit = true ∨ c = '.'
  pton4_dot : ∀ s a, I.pton4 s = some a → '.' ∈ s
  pton4_length : ∀ s a, I.pton4 s = some a → s.length < 16
  pton6_mem : ∀ s a, I.pton6 s = some a → ∀ c ∈ s, c.isAlphanum = true ∨ c = '.' ∨ c = ':'
  pton6_colon : ∀ s a, I.pton6 s = some a → ':' ∈ s
  pton6_dot : ∀ q t a, I.pton6 (q ++ '.' :: t) = some a → ':' ∉ t
  pton6_length : ∀ s a, I.pton6 s = some a → s.length < 46

namespace Host

/-! ### The members -/

/-- `SockaddrIn`, up to the padding. -/
structure SockaddrIn where
  sinPort : UInt16
  sinAddr : BitVec 32
  deriving DecidableEq

/-- `SockaddrIn6`. -/
structure SockaddrIn6 where
  sin6Port : UInt16
  sin6Flowinfo : BitVec 32
  sin6Addr : BitVec 128
  sin6ScopeId : BitVec 32
  deriving DecidableEq

/-- The union of `Host`, by the family. -/
inductive Raw
  | none
  | ipv4 (myAddrIn : SockaddrIn)
  | ipv6 (myAddrIn6 : SockaddrIn6)
  deriving DecidableEq

/-- `SockaddrInCreate`. -/
def sockaddrInCreate : SockaddrIn := ⟨0, 0⟩

/-- `SockaddrIn6Create`. -/
def sockaddrIn6Create : SockaddrIn6 := ⟨0, 0, 0, 0⟩

namespace Raw

/-- `Set` of a string in brackets, without the first one. -/
def setBrackets (I : Inet) (str : List Char) (host : Raw) : Bool × Raw :=
  let ip := str.takeWhile (· ≠ ']')
  match str.dropWhile (· ≠ ']') with
  | [] => (false, host)
  | _ :: rest =>
    if ip.length > ipv6Len then (false, host)
    else match I.pton6 ip with
      | Option.none => (false, host)
      | some addr =>
        let port := match rest with
          | [] => some 0
          | c :: port => if c = ':' then stringToNumber16 port else Option.none
        match port with
        | Option.none => (false, host)
        | some port =>
          (true, ipv6 { sockaddrIn6Create with sin6Addr := addr, sin6Port := htons port })

/-- `Set` of an address with a port, `"ipv4:port"`. -/
def setPortSuffix (I : Inet) (str : List Char) (host : Raw) : Bool × Raw :=
  let ip := str.takeWhile (· ≠ ':')
  match str.dropWhile (· ≠ ':') with
  | [] => (false, host)
  | _ :: port =>
    if ip.length > ipv4Len then (false, host)
    else match I.pton4 ip with
      | Option.none => (false, host)
      | some addr => match stringToNumber16 port with
        | Option.none => (false, host)
        | some port =>
          (true, ipv4 { sockaddrInCreate with sinAddr := addr, sinPort := htons port })

/-- `Set` of a string: what it returns, and the host after it. -/
def set (I : Inet) (str : List Char) (host : Raw) : Bool × Raw :=
  if str.head? = some '[' then setBrackets I str.tail host
  else match I.pton4 str with
    | some addr => (true, ipv4 { sockaddrInCreate with sinAddr := addr })
    | Option.none => match I.pton6 str with
      | some addr => (true, ipv6 { sockaddrIn6Create with sin6Addr := addr })
      | Option.none => setPortSuffix I str host

/-- `InetNtoP`: the string which is written with its zero, or null when it does not fit. -/
def inetNtoP (str : List Char) (size : ℕ) : Option (List Char) :=
  if str.length + 1 ≤ size then some str else Option.none

/-- `vsnprintf`: what is written before the zero, and the length of the whole text. -/
def vsnprintf (size : ℕ) (text : List Char) : List Char × ℕ := (text.take (size - 1), text.length)

/-- `StringFormat` of a text; `none` when its assertion fails. -/
def stringFormat (text : List Char) : Option (List Char) :=
  let size := (vsnprintf 0 text).2 + 1
  let r := vsnprintf size text
  if r.2 + 1 = size then some r.1 else Option.none

/-- `ToString`; `none` when an assertion fails. -/
def toString (I : Inet) : Raw → Option (List Char)
  | none => some "none".toList
  | ipv4 a => (inetNtoP (I.ntop4 a.sinAddr) ipv4Len).bind fun ipStr =>
    stringFormat (ipStr ++ ':' :: printPort (htons a.sinPort))
  | ipv6 a => (inetNtoP (I.ntop6 a.sin6Addr) ipv6Len).bind fun ipStr =>
    stringFormat ('[' :: (ipStr ++ ']' :: ':' :: printPort (htons a.sin6Port)))

/-- `operator==`. -/
def equal : Raw → Raw → Bool
  | none, none => true
  | ipv4 a, ipv4 b => a.sinAddr = b.sinAddr && a.sinPort = b.sinPort
  | ipv6 a, ipv6 b => a.sin6Addr = b.sin6Addr && a.sin6Port = b.sin6Port
  | _, _ => false

/-- The address and the port of the members. -/
def host : Raw → Host
  | none => .none
  | ipv4 a => .ipv4 a.sinAddr (htons a.sinPort)
  | ipv6 a => .ipv6 a.sin6Addr (htons a.sin6Port)

variable {I : Inet} {str : List Char} {raw raw' : Raw}

/-- Hosts are equal when they have the same address and the same port. -/
theorem equal_iff : raw.equal raw' = true ↔ raw.host = raw'.host := by
  have hport : ∀ a b : UInt16, htons a = htons b ↔ a = b := fun a b =>
    ⟨htons_injective, congrArg htons⟩
  cases raw <;> cases raw' <;> simp [equal, host, hport]

/-- `Set` of the members is `Set` of the address and the port. -/
theorem set_eq (I : Inet) (str : List Char) (raw : Raw) :
    match Host.set I str with
    | Option.none => raw.set I str = (false, raw)
    | some h => ∃ raw', raw.set I str = (true, raw') ∧ raw'.host = h := by
  have hbrackets : ∀ str, match Host.setBrackets I str with
      | Option.none => setBrackets I str raw = (false, raw)
      | some h => ∃ raw', setBrackets I str raw = (true, raw') ∧ raw'.host = h := fun str => by
    unfold Host.setBrackets setBrackets
    cases str.dropWhile (· ≠ ']') with
    | nil => rfl
    | cons c rest =>
      dsimp only
      by_cases hlen : (str.takeWhile (· ≠ ']')).length > ipv6Len
      · rw [if_pos hlen, if_pos hlen]
      · rw [if_neg hlen, if_neg hlen]
        cases I.pton6 (str.takeWhile (· ≠ ']')) with
        | none => rfl
        | some addr =>
          cases rest with
          | nil => exact ⟨_, rfl, by simp [host]⟩
          | cons d port =>
            rw [Option.bind_some]
            dsimp only
            by_cases hd : d = ':'
            · rw [if_pos hd, if_pos hd]
              cases stringToNumber16 port with
              | none => rfl
              | some n => exact ⟨_, rfl, by simp [host]⟩
            · rw [if_neg hd, if_neg hd]
  have hsuffix : match Host.setPortSuffix I str with
      | Option.none => setPortSuffix I str raw = (false, raw)
      | some h => ∃ raw', setPortSuffix I str raw = (true, raw') ∧ raw'.host = h := by
    unfold Host.setPortSuffix setPortSuffix
    cases str.dropWhile (· ≠ ':') with
    | nil => rfl
    | cons c port =>
      dsimp only
      by_cases hlen : (str.takeWhile (· ≠ ':')).length > ipv4Len
      · rw [if_pos hlen, if_pos hlen]
      · rw [if_neg hlen, if_neg hlen]
        cases I.pton4 (str.takeWhile (· ≠ ':')) with
        | none => rfl
        | some addr =>
          rw [Option.bind_some]
          cases stringToNumber16 port with
          | none => rfl
          | some n => exact ⟨_, rfl, by simp [host]⟩
  unfold Host.set set
  by_cases hhead : str.head? = some '['
  · rw [if_pos hhead, if_pos hhead]
    exact hbrackets str.tail
  · rw [if_neg hhead, if_neg hhead]
    cases I.pton4 str with
    | some addr => exact ⟨_, rfl, by simp [host, sockaddrInCreate]⟩
    | none =>
      cases I.pton6 str with
      | some addr => exact ⟨_, rfl, by simp [host, sockaddrIn6Create]⟩
      | none => exact hsuffix

theorem set_of_some {h : Host} (hset : Host.set I str = some h) (raw : Raw) :
    (raw.set I str).1 = true ∧ (raw.set I str).2.host = h := by
  have := set_eq I str raw
  rw [hset] at this
  obtain ⟨raw', hraw, hh⟩ := this
  rw [hraw]
  exact ⟨rfl, hh⟩

theorem set_of_none (hset : Host.set I str = Option.none) (raw : Raw) :
    raw.set I str = (false, raw) := by
  have := set_eq I str raw
  rwa [hset] at this

end Raw

/-! ### The grammar -/

/-- A port as a sequence of digits. -/
def DigitsText (str : List Char) (port : UInt16) : Prop :=
  str ≠ [] ∧ (∀ c ∈ str, c.isDigit = true) ∧ Nat.ofDigitChars 10 str 0 = port.toNat

/-- A port as `StringToNumber` takes it: spaces and a sign `+` may stand before the digits. -/
def PortText (str : List Char) (port : UInt16) : Prop :=
  ∃ spaces sign digits, str = spaces ++ (sign ++ digits) ∧ (∀ c ∈ spaces, isspace c = true) ∧
    (sign = [] ∨ sign = ['+']) ∧ DigitsText digits port

/-- The texts of hosts, for the given texts of ports. -/
inductive Denotes (I : Inet) (P : List Char → UInt16 → Prop) : List Char → Host → Prop
  | v4 {ip addr} : I.pton4 ip = some addr → Denotes I P ip (ipv4 addr 0)
  | v4Port {ip addr str port} : I.pton4 ip = some addr → P str port →
      Denotes I P (ip ++ ':' :: str) (ipv4 addr port)
  | v6 {ip addr} : I.pton6 ip = some addr → Denotes I P ip (ipv6 addr 0)
  | v6Brackets {ip addr} : I.pton6 ip = some addr → Denotes I P ('[' :: (ip ++ [']'])) (ipv6 addr 0)
  | v6BracketsPort {ip addr str port} : I.pton6 ip = some addr → P str port →
      Denotes I P ('[' :: (ip ++ ']' :: ':' :: str)) (ipv6 addr port)

theorem isspace_of_isDigit {c : Char} (hc : c.isDigit = true) : isspace c = false := by
  by_contra hs
  simp only [isspace, Bool.not_eq_false, Bool.or_eq_true, decide_eq_true_eq] at hs
  rcases hs with ((((rfl | rfl) | rfl) | rfl) | rfl) | rfl <;> revert hc <;> decide

theorem ne_of_isDigit {c d : Char} (hc : c.isDigit = true) (hd : d.isDigit = false) : c ≠ d := by
  rintro rfl
  rw [hc] at hd
  cases hd

/-- The port which is read, when the sign is taken away from what follows the spaces. -/
theorem stringToNumber16_eq_some {str digits : List Char} {port : UInt16}
    (hdigits : digits = if (str.dropWhile isspace).head? = some '+'
      then (str.dropWhile isspace).tail else str.dropWhile isspace) :
    stringToNumber16 str = some port ↔ DigitsText digits port := by
  have hport : port.toNat < 65536 := port.toNat_lt
  unfold stringToNumber16 stringToNumber DigitsText
  simp only [← hdigits, List.all_eq_true]
  constructor
  · intro h
    split at h
    · rename_i hok
      rw [Option.bind_some] at h
      split at h
      · rename_i hle
        refine ⟨hok.1, hok.2.1, ?_⟩
        rw [← Option.some.inj h, UInt16.toNat_ofNat', Nat.mod_eq_of_lt]
        omega
      · cases h
    · cases h
  · rintro ⟨hne, hall, hval⟩
    rw [if_pos ⟨hne, hall, by omega⟩, Option.bind_some, if_pos (by omega), hval,
      UInt16.ofNat_toNat]

/-- `StringToNumber` takes exactly the texts of ports. -/
theorem stringToNumber16_iff {str : List Char} {port : UInt16} :
    stringToNumber16 str = some port ↔ PortText str port := by
  constructor
  · intro h
    have hsplit : str.takeWhile isspace ++ str.dropWhile isspace = str :=
      List.takeWhile_append_dropWhile
    have hspaces : ∀ c ∈ str.takeWhile isspace, isspace c = true := fun c hc =>
      List.mem_takeWhile_imp hc
    by_cases hplus : (str.dropWhile isspace).head? = some '+'
    · refine ⟨str.takeWhile isspace, ['+'], (str.dropWhile isspace).tail, ?_, hspaces, .inr rfl,
        (stringToNumber16_eq_some (by rw [if_pos hplus])).mp h⟩
      rw [List.singleton_append, List.cons_head?_tail hplus]
      exact hsplit.symm
    · refine ⟨str.takeWhile isspace, [], str.dropWhile isspace, ?_, hspaces, .inl rfl,
        (stringToNumber16_eq_some (by rw [if_neg hplus])).mp h⟩
      exact hsplit.symm
  · rintro ⟨spaces, sign, digits, rfl, hspaces, hsign, hdigits⟩
    obtain ⟨d, l, rfl⟩ := List.exists_cons_of_ne_nil hdigits.1
    have hd : d.isDigit = true := hdigits.2.1 d List.mem_cons_self
    have hdrop : (spaces ++ (sign ++ d :: l)).dropWhile isspace = sign ++ d :: l := by
      rw [List.dropWhile_append_of_pos hspaces]
      rcases hsign with rfl | rfl
      · exact List.dropWhile_cons_of_neg (by simp [isspace_of_isDigit hd])
      · exact List.dropWhile_cons_of_neg (by decide)
    refine (stringToNumber16_eq_some ?_).mpr hdigits
    rw [hdrop]
    rcases hsign with rfl | rfl
    · have hne : d ≠ '+' := ne_of_isDigit hd rfl
      rw [if_neg (by simpa using hne)]
      rfl
    · rw [List.singleton_append, List.head?_cons, if_pos rfl, List.tail_cons]

variable {I : Inet} {str : List Char} {h : Host}

/-- What is taken in brackets has the form of a text in brackets. -/
theorem denotes_of_setBrackets (hset : setBrackets I str = some h) :
    Denotes I PortText ('[' :: str) h := by
  have hsplit : str.takeWhile (· ≠ ']') ++ str.dropWhile (· ≠ ']') = str :=
    List.takeWhile_append_dropWhile
  unfold setBrackets at hset
  split at hset
  · cases hset
  · rename_i c rest hdrop
    have hc : c = ']' := by
      have := List.head?_dropWhile_not (· ≠ ']') str
      rw [hdrop] at this
      simpa using this
    rw [hdrop, hc] at hsplit
    dsimp only at hset
    split at hset
    · cases hset
    · rw [Option.bind_eq_some_iff] at hset
      obtain ⟨addr, haddr, hset⟩ := hset
      rw [← hsplit]
      cases rest with
      | nil =>
        cases hset
        exact .v6Brackets haddr
      | cons d port =>
        dsimp only at hset
        split at hset
        · rename_i hd
          rw [Option.map_eq_some_iff] at hset
          obtain ⟨n, hn, rfl⟩ := hset
          rw [hd]
          exact .v6BracketsPort haddr (stringToNumber16_iff.mp hn)
        · cases hset

/-- What is taken with a port has the form of a text with a port. -/
theorem denotes_of_setPortSuffix (hset : setPortSuffix I str = some h) :
    Denotes I PortText str h := by
  have hsplit : str.takeWhile (· ≠ ':') ++ str.dropWhile (· ≠ ':') = str :=
    List.takeWhile_append_dropWhile
  unfold setPortSuffix at hset
  split at hset
  · cases hset
  · rename_i c port hdrop
    have hc : c = ':' := by
      have := List.head?_dropWhile_not (· ≠ ':') str
      rw [hdrop] at this
      simpa using this
    rw [hdrop, hc] at hsplit
    dsimp only at hset
    split at hset
    · cases hset
    · rw [Option.bind_eq_some_iff] at hset
      obtain ⟨addr, haddr, hset⟩ := hset
      rw [Option.map_eq_some_iff] at hset
      obtain ⟨n, hn, rfl⟩ := hset
      rw [← hsplit]
      exact .v4Port haddr (stringToNumber16_iff.mp hn)

/-- What is taken is a text of the grammar. -/
theorem denotes_of_set (hset : set I str = some h) : Denotes I PortText str h := by
  unfold set at hset
  split at hset
  · rename_i hhead
    rw [← List.cons_head?_tail hhead]
    exact denotes_of_setBrackets hset
  · split at hset
    · rename_i addr haddr
      cases hset
      exact .v4 haddr
    · split at hset
      · rename_i addr haddr
        cases hset
        exact .v6 haddr
      · exact denotes_of_setPortSuffix hset

section Documented

variable {ip rest port : List Char} {addr : BitVec 32} {addr6 : BitVec 128} (hI : I.Documented)
include hI

theorem notMem_of_pton4 {c : Char} (haddr : I.pton4 ip = some addr) (hc : c.isDigit = false)
    (hdot : c ≠ '.') : c ∉ ip := fun hmem => by
  rcases hI.pton4_mem ip addr haddr c hmem with hd | hd
  · exact ne_of_isDigit hd hc rfl
  · exact hdot hd

theorem notMem_of_pton6 {c : Char} (haddr : I.pton6 ip = some addr6) (hc : c.isAlphanum = false)
    (hdot : c ≠ '.') (hcolon : c ≠ ':') : c ∉ ip := fun hmem => by
  rcases hI.pton6_mem ip addr6 haddr c hmem with hd | hd | hd
  · rw [hc] at hd
    cases hd
  · exact hdot hd
  · exact hcolon hd

/-- A string with a colon is not an address of the first family. -/
theorem pton4_eq_none (hcolon : ':' ∈ ip) : I.pton4 ip = Option.none := by
  cases haddr : I.pton4 ip with
  | none => rfl
  | some a => exact absurd hcolon (notMem_of_pton4 hI haddr rfl (by decide))

/-- An address of the first family with a port is not an address of the second family. -/
theorem pton6_eq_none (haddr : I.pton4 ip = some addr) :
    I.pton6 (ip ++ ':' :: port) = Option.none := by
  cases haddr6 : I.pton6 (ip ++ ':' :: port) with
  | none => rfl
  | some a =>
    obtain ⟨q, t, rfl⟩ := List.append_of_mem (hI.pton4_dot ip addr haddr)
    rw [List.append_assoc, List.cons_append] at haddr6
    exact absurd (List.mem_append_right t List.mem_cons_self) (hI.pton6_dot q _ a haddr6)

theorem head?_of_pton4 (haddr : I.pton4 ip = some addr) : (ip ++ rest).head? ≠ some '[' := by
  have hne : ip ≠ [] := List.ne_nil_of_mem (hI.pton4_dot ip addr haddr)
  rw [List.head?_append_of_ne_nil _ hne]
  exact fun hc => notMem_of_pton4 hI haddr rfl (by decide) (List.mem_of_head? hc)

theorem setBrackets_append (haddr : I.pton6 ip = some addr6) :
    setBrackets I (ip ++ ']' :: rest) = match rest with
      | [] => some (ipv6 addr6 0)
      | c :: port =>
        if c = ':' then (stringToNumber16 port).map fun port => ipv6 addr6 port
        else Option.none := by
  have hnot : ∀ c ∈ ip, decide (c ≠ ']') = true := fun c hc => by
    have : ']' ∉ ip := notMem_of_pton6 hI haddr rfl (by decide) (by decide)
    simpa using fun he : c = ']' => this (he ▸ hc)
  have htake : (ip ++ ']' :: rest).takeWhile (· ≠ ']') = ip := by
    rw [List.takeWhile_append_of_pos hnot, List.takeWhile_cons_of_neg (by simp), List.append_nil]
  have hdrop : (ip ++ ']' :: rest).dropWhile (· ≠ ']') = ']' :: rest := by
    rw [List.dropWhile_append_of_pos hnot, List.dropWhile_cons_of_neg (by simp)]
  have hlen : ¬ ip.length > ipv6Len := by
    have := hI.pton6_length ip addr6 haddr
    simp only [ipv6Len]
    omega
  unfold setBrackets
  cases rest with
  | nil => simp only [htake, hdrop, if_neg hlen, haddr, Option.bind_some]
  | cons c port => simp only [htake, hdrop, if_neg hlen, haddr, Option.bind_some]

theorem setPortSuffix_append (haddr : I.pton4 ip = some addr) :
    setPortSuffix I (ip ++ ':' :: port) =
      (stringToNumber16 port).map fun port => ipv4 addr port := by
  have hnot : ∀ c ∈ ip, decide (c ≠ ':') = true := fun c hc => by
    have : ':' ∉ ip := notMem_of_pton4 hI haddr rfl (by decide)
    simpa using fun he : c = ':' => this (he ▸ hc)
  have htake : (ip ++ ':' :: port).takeWhile (· ≠ ':') = ip := by
    rw [List.takeWhile_append_of_pos hnot, List.takeWhile_cons_of_neg (by simp), List.append_nil]
  have hdrop : (ip ++ ':' :: port).dropWhile (· ≠ ':') = ':' :: port := by
    rw [List.dropWhile_append_of_pos hnot, List.dropWhile_cons_of_neg (by simp)]
  have hlen : ¬ ip.length > ipv4Len := by
    have := hI.pton4_length ip addr haddr
    simp only [ipv4Len]
    omega
  unfold setPortSuffix
  simp only [htake, hdrop, if_neg hlen, haddr, Option.bind_some]

/-- A text of the grammar is taken as the host which it denotes. -/
theorem set_of_denotes (hden : Denotes I PortText str h) : set I str = some h := by
  cases hden with
  | @v4 _ addr haddr =>
    have hhead : str.head? ≠ some '[' := by
      have : (str ++ []).head? ≠ some '[' := head?_of_pton4 hI haddr
      rwa [List.append_nil] at this
    rw [set, if_neg hhead]
    simp only [haddr]
  | @v4Port ip addr port n haddr hport =>
    rw [set, if_neg (head?_of_pton4 hI haddr)]
    simp only [pton4_eq_none hI (List.mem_append_right ip List.mem_cons_self),
      pton6_eq_none hI haddr, setPortSuffix_append hI haddr, stringToNumber16_iff.mpr hport]
    rfl
  | @v6 _ addr haddr =>
    have hhead : str.head? ≠ some '[' := fun hc =>
      notMem_of_pton6 hI haddr rfl (by decide) (by decide) (List.mem_of_head? hc)
    rw [set, if_neg hhead]
    simp only [pton4_eq_none hI (hI.pton6_colon str addr haddr), haddr]
  | v6Brackets haddr =>
    rw [set, List.head?_cons, if_pos rfl, List.tail_cons, setBrackets_append hI haddr]
  | v6BracketsPort haddr hport =>
    rw [set, List.head?_cons, if_pos rfl, List.tail_cons, setBrackets_append hI haddr]
    simp only [if_true, stringToNumber16_iff.mpr hport]
    rfl

/-- `Set` takes exactly the texts of the grammar. -/
theorem set_eq_some_iff : set I str = some h ↔ Denotes I PortText str h :=
  ⟨denotes_of_set, set_of_denotes hI⟩

end Documented

theorem digitsText_printPort (port : UInt16) : DigitsText (printPort port) port :=
  ⟨Nat.toDigits_ne_nil, fun _ => Nat.isDigit_of_mem_toDigits (by decide) (by decide),
    Nat.ofDigitChars_ten_toDigits⟩

theorem DigitsText.portText {port : UInt16} (hstr : DigitsText str port) : PortText str port :=
  ⟨[], [], str, rfl, nofun, .inl rfl, hstr⟩

/-- A printed host is a text of it. -/
theorem denotes_toString (hI : I.Lawful) (hset : h.isSet = true) :
    Denotes I PortText (h.toString I) h := by
  cases h with
  | none => cases hset
  | ipv4 addr port =>
    exact .v4Port (hI.pton4_ntop4 addr) (digitsText_printPort port).portText
  | ipv6 addr port =>
    exact .v6BracketsPort (hI.pton6_ntop6 addr) (digitsText_printPort port).portText

theorem length_printPort (port : UInt16) : (printPort port).length ≤ 5 := by
  have hport : port.toNat < 10 ^ 5 := by
    have : port.toNat < 65536 := port.toNat_lt
    omega
  exact (Nat.length_toDigits_le_iff (by decide) (by decide)).mpr hport

namespace Raw

variable {raw : Raw}

/-- The address which `ToString` prints. -/
def address (I : Inet) : Raw → List Char
  | none => []
  | ipv4 a => I.ntop4 a.sinAddr
  | ipv6 a => I.ntop6 a.sin6Addr

/-- The size of the buffer for it. -/
def bufferLen : Raw → ℕ
  | none => 0
  | ipv4 _ => ipv4Len
  | ipv6 _ => ipv6Len

/-- A text fits into the buffer which is measured for it. -/
theorem stringFormat_eq (text : List Char) : stringFormat text = some text := by
  simp [stringFormat, vsnprintf]

/-- The whole text would fit into the buffer of the address. -/
theorem length_toString (hI : I.Lawful) (hD : I.Documented) (hset : raw.host.isSet = true) :
    (raw.address I).length + 1 ≤ raw.bufferLen ∧
      (raw.host.toString I).length + 1 ≤ raw.bufferLen := by
  cases raw with
  | none => cases hset
  | ipv4 a =>
    have haddr : (I.ntop4 a.sinAddr).length < 16 := hD.pton4_length _ _ (hI.pton4_ntop4 a.sinAddr)
    have hport := length_printPort (htons a.sinPort)
    simp only [address, bufferLen, host, Host.toString, ipv4Len, List.length_append,
      List.length_cons]
    omega
  | ipv6 a =>
    have haddr : (I.ntop6 a.sin6Addr).length < 46 := hD.pton6_length _ _ (hI.pton6_ntop6 a.sin6Addr)
    have hport := length_printPort (htons a.sin6Port)
    simp only [address, bufferLen, host, Host.toString, ipv6Len, List.length_append,
      List.length_cons]
    omega

/-- No assertion of `ToString` fails. -/
theorem toString_eq (hI : I.Lawful) (hD : I.Documented) (hset : raw.host.isSet = true) :
    raw.toString I = some (raw.host.toString I) := by
  have hfits := (length_toString hI hD hset).1
  cases raw with
  | none => cases hset
  | ipv4 a =>
    simp only [address, bufferLen] at hfits
    rw [toString, inetNtoP, if_pos hfits, Option.bind_some, stringFormat_eq]
    rfl
  | ipv6 a =>
    simp only [address, bufferLen] at hfits
    rw [toString, inetNtoP, if_pos hfits, Option.bind_some, stringFormat_eq]
    rfl

/-- **The grammar of hosts.** `Set` returns true exactly for the texts of the grammar, the host is
then the one which the text denotes, and on a failure it is left as it was. -/
theorem set_iff (I : Inet) (hI : I.Documented) (str : List Char) (raw : Raw) :
    ((raw.set I str).1 = true ↔ ∃ h, Denotes I PortText str h) ∧
    (∀ h, Denotes I PortText str h → (raw.set I str).2.host = h) ∧
    ((raw.set I str).1 = false → (raw.set I str).2 = raw) := by
  have hsome : ∀ {h}, Denotes I PortText str h → (raw.set I str).1 = true ∧
      (raw.set I str).2.host = h := fun hden => set_of_some (set_of_denotes hI hden) raw
  refine ⟨⟨fun htrue => ?_, fun ⟨h, hden⟩ => (hsome hden).1⟩, fun h hden => (hsome hden).2,
    fun hfalse => ?_⟩
  · cases hset : Host.set I str with
    | none =>
      rw [set_of_none hset raw] at htrue
      cases htrue
    | some h => exact ⟨h, denotes_of_set hset⟩
  · cases hset : Host.set I str with
    | none => rw [set_of_none hset raw]
    | some h =>
      rw [(set_of_some hset raw).1] at hfalse
      cases hfalse

/-- **Printing and reading.** The text of a host with an address is read again, and the host which
is set from it is equal. The address fits into its buffer, and so would the whole text. -/
theorem set_toString (I : Inet) (hI : I.Lawful) (hD : I.Documented) (raw raw' : Raw)
    (hset : raw.host.isSet = true) :
    ∃ str, raw.toString I = some str ∧ (raw'.set I str).1 = true ∧
      (raw'.set I str).2.equal raw = true ∧ (raw.address I).length + 1 ≤ raw.bufferLen ∧
      str.length + 1 ≤ raw.bufferLen := by
  have hden : Denotes I PortText (raw.host.toString I) raw.host := denotes_toString hI hset
  obtain ⟨htrue, hhost⟩ := set_of_some (set_of_denotes hD hden) raw'
  obtain ⟨haddr, htext⟩ := length_toString hI hD hset
  exact ⟨raw.host.toString I, toString_eq hI hD hset, htrue, equal_iff.mpr hhost, haddr, htext⟩

end Raw

/-- The characters of a text in which a port is only digits. -/
theorem Denotes.mem (hI : I.Documented) (hden : Denotes I DigitsText str h) {c : Char}
    (hc : c ∈ str) :
    c.isAlphanum = true ∨ c ∈ ".:[]".toList := by
  have hv4 : ∀ {ip addr}, I.pton4 ip = some addr → c ∈ ip →
      c.isAlphanum = true ∨ c ∈ ".:[]".toList := fun haddr hmem => by
    rcases hI.pton4_mem _ _ haddr c hmem with hd | rfl
    · exact .inl (by simp [Char.isAlphanum, hd])
    · exact .inr (by decide)
  have hv6 : ∀ {ip addr}, I.pton6 ip = some addr → c ∈ ip →
      c.isAlphanum = true ∨ c ∈ ".:[]".toList := fun haddr hmem => by
    rcases hI.pton6_mem _ _ haddr c hmem with hd | rfl | rfl
    · exact .inl hd
    · exact .inr (by decide)
    · exact .inr (by decide)
  have hport : ∀ {t port}, DigitsText t port → c ∈ t →
      c.isAlphanum = true ∨ c ∈ ".:[]".toList := fun ht hmem =>
    .inl (by simp [Char.isAlphanum, ht.2.1 c hmem])
  cases hden with
  | v4 haddr => exact hv4 haddr hc
  | v4Port haddr hp =>
    rw [List.mem_append, List.mem_cons] at hc
    rcases hc with hc | rfl | hc
    · exact hv4 haddr hc
    · exact .inr (by decide)
    · exact hport hp hc
  | v6 haddr => exact hv6 haddr hc
  | v6Brackets haddr =>
    rw [List.mem_cons, List.mem_append, List.mem_singleton] at hc
    rcases hc with rfl | hc | rfl
    · exact .inr (by decide)
    · exact hv6 haddr hc
    · exact .inr (by decide)
  | v6BracketsPort haddr hp =>
    rw [List.mem_cons, List.mem_append, List.mem_cons, List.mem_cons] at hc
    rcases hc with rfl | hc | rfl | rfl | hc
    · exact .inr (by decide)
    · exact hv6 haddr hc
    · exact .inr (by decide)
    · exact .inr (by decide)
    · exact hport hp hc

end Host

namespace Inet

theorem eq_printDots {s : List Char} {a : BitVec 32} (h : parseDots s = some a) :
    s = printDots (readDots s) := by
  unfold parseDots at h
  split at h
  · rename_i he
    exact he.symm
  · cases h

theorem eq_printColons {s : List Char} {a : BitVec 128} (h : parseColons s = some a) :
    s = printColons (readColons s) := by
  unfold parseColons at h
  split at h
  · rename_i he
    exact he.symm
  · cases h

theorem length_printDots (a : BitVec 32) : (printDots a).length < 16 := by
  have hnumber : ∀ n < 256, (Nat.toDigits 10 n).length ≤ 3 := fun n hn =>
    (Nat.length_toDigits_le_iff (by decide) (by decide)).mpr (by omega)
  have := a.isLt
  have h₁ := hnumber (a.toNat / 2 ^ 24) (by omega)
  have h₂ := hnumber (a.toNat / 2 ^ 16 % 256) (by omega)
  have h₃ := hnumber (a.toNat / 2 ^ 8 % 256) (by omega)
  have h₄ := hnumber (a.toNat % 256) (by omega)
  simp only [printDots, List.length_append, List.length_cons]
  omega

theorem length_colons (l : List Char) : (colons l).length ≤ l.length + l.length / 4 := by
  fun_induction colons l with
  | case1 a b c d e t ih =>
    simp only [List.length_cons] at ih ⊢
    omega
  | case2 t h => exact Nat.le_add_right _ _

theorem length_printColons (a : BitVec 128) : (printColons a).length < 46 := by
  have := length_colons (nibbles 32 a.toNat)
  rw [length_nibbles] at this
  rw [printColons]
  omega

theorem dot_notMem_printColons (a : BitVec 128) : '.' ∉ printColons a := fun hc => by
  have hmem : '.' ∈ (printColons a).filter (· ≠ ':') := List.mem_filter.mpr ⟨hc, by decide⟩
  rw [printColons, filter_colons _ fun c hc => (nibbles_mem hc).2] at hmem
  have := (nibbles_mem hmem).1
  revert this
  decide

theorem sample_documented : sample.Documented := by
  refine ⟨fun s a h c hc => ?_, fun s a h => ?_, fun s a h => ?_, fun s a h c hc => ?_,
    fun s a h => ?_, fun q t a h => ?_, fun s a h => ?_⟩
  · rw [eq_printDots h] at hc
    exact printDots_mem hc
  · rw [eq_printDots h]
    simp [printDots]
  · rw [eq_printDots h]
    exact length_printDots _
  · dsimp only [sample] at h
    rw [eq_printColons h] at hc
    exact printColons_mem hc
  · dsimp only [sample] at h
    rw [eq_printColons h]
    exact colon_mem_printColons _
  · dsimp only [sample] at h
    have hdot : '.' ∈ q ++ '.' :: t := List.mem_append_right q List.mem_cons_self
    rw [eq_printColons h] at hdot
    exact absurd hdot (dot_notMem_printColons _)
  · dsimp only [sample] at h
    rw [eq_printColons h]
    exact length_printColons _

end Inet

namespace Host.Raw

/-- A port with spaces before it, and one with a sign. -/
theorem set_iff_sample :
    Inet.sample.Documented ∧ PortText " +65535".toList 65535 ∧
      (Raw.none.set Inet.sample "127.0.0.1: +65535".toList).2.host = .ipv4 0x7f000001 65535 := by
  have hport : PortText " +65535".toList 65535 := stringToNumber16_iff.mp (by decide +kernel)
  have hden : Denotes Inet.sample PortText "127.0.0.1: +65535".toList (.ipv4 0x7f000001 65535) :=
    denotes_of_set (by decide +kernel)
  exact ⟨Inet.sample_documented, hport,
    (set_iff Inet.sample Inet.sample_documented _ Raw.none).2.1 _ hden⟩

/-- A port with a space and a sign is not only digits, and `Set` takes it. -/
theorem set_spaces_sign :
    ¬ ∀ (str : List Char) (raw : Raw), (raw.set Inet.sample str).1 = true ↔
      ∃ h, Denotes Inet.sample DigitsText str h := by
  intro hclaim
  have htrue : (Raw.none.set Inet.sample "127.0.0.1: +80".toList).1 = true := by decide +kernel
  obtain ⟨h, hden⟩ := (hclaim "127.0.0.1: +80".toList Raw.none).mp htrue
  have hmem : '+' ∈ "127.0.0.1: +80".toList := by decide +kernel
  have hplus : ¬ ('+'.isAlphanum = true ∨ '+' ∈ ".:[]".toList) := by decide +kernel
  exact hplus (hden.mem Inet.sample_documented hmem)

/-- The text of the local host with a port and of an address of the second family. -/
theorem set_toString_sample :
    (∃ str, (ipv4 ⟨htons 80, 0x7f000001⟩).toString Inet.sample = some str ∧
      (Raw.none.set Inet.sample str).1 = true ∧
      (Raw.none.set Inet.sample str).2.equal (ipv4 ⟨htons 80, 0x7f000001⟩) = true ∧
      ((ipv4 ⟨htons 80, 0x7f000001⟩).address Inet.sample).length + 1 ≤ 22 ∧
      str.length + 1 ≤ 22) ∧
    ∃ str, (ipv6 ⟨0, 0, 1, 7⟩).toString Inet.sample = some str ∧
      (Raw.none.set Inet.sample str).1 = true ∧
      (Raw.none.set Inet.sample str).2.equal (ipv6 ⟨0, 0, 1, 7⟩) = true ∧
      ((ipv6 ⟨0, 0, 1, 7⟩).address Inet.sample).length + 1 ≤ 54 ∧ str.length + 1 ≤ 54 :=
  ⟨set_toString Inet.sample Inet.sample_lawful Inet.sample_documented _ Raw.none rfl,
    set_toString Inet.sample Inet.sample_lawful Inet.sample_documented _ Raw.none rfl⟩

end Host.Raw

end Serverbox
