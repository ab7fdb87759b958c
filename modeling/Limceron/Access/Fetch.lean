/-
# `Limceron.Access.Fetch` — the URL that is checked, and the one that is fetched

`lcn_fetch_checked` takes a URL apart with `acl_parse_url`, and hands the URL on to
a client that takes it apart once more.

| behind the host | `acl_parse_url` | `parse_url` |
| :-- | :-- | :-- |
| `:` and a number | the port | the port, if it is one |
| what follows the number | nothing | the path, if it begins with `/` |
| the first `/` | the path, up to 1023 of it | the path, if it is here |

What the two read behind the host is all that can differ (`urlsAgree_iff`).
-/
import Limceron.Access.Check
import Mathlib.Data.List.TakeDrop
import Mathlib.Data.List.TakeWhile

namespace Limceron.Access

open Caps (CString)

/-! ## The client -/

/-- What `strtol` does not read, if there are digits. -/
def strtolEnd (s : CString) : CString := (sign (s.dropWhile isSpace)).2.dropWhile isDigit

/-- `end != p`, behind `strtol`. -/
def hasNumber (s : CString) : Bool := !((sign (s.dropWhile isSpace)).2.takeWhile isDigit).isEmpty

/-- The port behind the host, and what is behind it. -/
def clientPort (port : Int) : CString → Option (Int × CString)
  | ':' :: s =>
      if !hasNumber s || strtol s ≤ 0 || strtol s > 65535 then none
      else some (strtol s, strtolEnd s)
  | s => some (port, s)

/-- The path that is requested. -/
def clientPath : CString → Option CString
  | '/' :: s => if 2048 ≤ ('/' :: s).length then none else some ('/' :: s)
  | _ => some ['/']

def inHost (c : Char) : Bool := c != ':' && c != '/'

/-- `parse_url`. -/
def parseUrl (url : CString) : Option Url := do
  let (p, port) ← dropScheme (some 80) url
  let host := p.takeWhile inHost
  if host = [] ∨ 256 ≤ host.length then none
  else
    let (port, s) ← clientPort port (p.dropWhile inHost)
    let path ← clientPath s
    some { host := host, port := port, path := path }

/-! ## The two readings -/

/-- Where the two look for the path. -/
def behindPort : CString → CString
  | ':' :: s => strtolEnd s
  | s => s

def fromSlash (s : CString) : CString := s.dropWhile (· != '/')

/-- The path of `acl_parse_url`. -/
def aclPath (s : CString) : CString :=
  if fromSlash s = [] then ['/'] else (fromSlash s).take 1023

/-- The port of `acl_parse_url`. -/
def aclPort (port : Int) : CString → Int
  | ':' :: s => atoi s
  | _ => port

theorem not_mem_takeWhile_inHost (p : CString) :
    ':' ∉ p.takeWhile inHost ∧ '/' ∉ p.takeWhile inHost := by
  refine ⟨fun h => ?_, fun h => ?_⟩
  · exact Bool.false_ne_true (List.mem_takeWhile_imp h)
  · exact Bool.false_ne_true (List.mem_takeWhile_imp h)

theorem takeWhile_append_of_not_mem {c : Char} {s t : CString} (h : c ∉ s) :
    (s ++ t).takeWhile (· != c) = s ++ t.takeWhile (· != c) := by
  refine List.takeWhile_append_of_pos fun a ha => ?_
  exact bne_iff_ne.2 fun hac => h (hac ▸ ha)

theorem dropWhile_append_of_not_mem {c : Char} {s t : CString} (h : c ∉ s) :
    (s ++ t).dropWhile (· != c) = t.dropWhile (· != c) := by
  refine List.dropWhile_append_of_pos fun a ha => ?_
  exact bne_iff_ne.2 fun hac => h (hac ▸ ha)

theorem fromSlash_eq_nil_iff {s : CString} : fromSlash s = [] ↔ '/' ∉ s := by
  rw [fromSlash, List.dropWhile_eq_nil_iff]
  constructor
  · intro h hmem
    exact absurd (h _ hmem) (by decide)
  · intro h c hc
    exact bne_iff_ne.2 fun heq => h (heq ▸ hc)

/-- What stands behind the host begins with `:` or `/`, if there is anything. -/
theorem behindHost_cases (p : CString) :
    p.dropWhile inHost = [] ∨ (∃ s, p.dropWhile inHost = ':' :: s) ∨
      ∃ s, p.dropWhile inHost = '/' :: s := by
  cases h : p.dropWhile inHost with
  | nil => exact .inl rfl
  | cons c s =>
      have hc : inHost c = false := by
        have := List.head_dropWhile_not inHost (l := p) (by simp [h])
        simpa [h] using this
      rw [inHost, Bool.and_eq_false_iff, bne_eq_false_iff_eq, bne_eq_false_iff_eq] at hc
      rcases hc with rfl | rfl
      · exact .inr (.inl ⟨s, rfl⟩)
      · exact .inr (.inr ⟨s, rfl⟩)

/-- The port that `acl_parse_url` looks for in the whole text. -/
theorem aclPort_append {host s : CString} (hcolon : ':' ∉ host) (hslash : '/' ∉ host)
    (hs : s = [] ∨ (∃ t, s = ':' :: t) ∨ ∃ t, s = '/' :: t) (port : Int) :
    (if ':' ∈ (host ++ s).takeWhile (· != '/') then atoi (behind ':' (host ++ s)) else port) =
      aclPort port s := by
  rw [takeWhile_append_of_not_mem hslash, behind, dropWhile_append_of_not_mem hcolon]
  rcases hs with rfl | ⟨t, rfl⟩ | ⟨t, rfl⟩
  · rw [List.takeWhile_nil, List.append_nil, if_neg hcolon]
    rfl
  · have hcons : (':' :: t).takeWhile (· != '/') = ':' :: t.takeWhile (· != '/') := rfl
    rw [hcons, if_pos (List.mem_append_right _ List.mem_cons_self)]
    rfl
  · have hnil : ('/' :: t).takeWhile (· != '/') = [] := rfl
    rw [hnil, List.append_nil, if_neg hcolon]
    rfl

theorem aclPath_append {host s : CString} (hslash : '/' ∉ host) :
    (if '/' ∈ host ++ s then ((host ++ s).dropWhile (· != '/')).take 1023 else ['/']) =
      aclPath s := by
  rw [dropWhile_append_of_not_mem hslash, aclPath]
  by_cases hs : '/' ∈ s
  · rw [if_pos (List.mem_append_right _ hs), if_neg fun h => fromSlash_eq_nil_iff.1 h hs]
    rfl
  · rw [if_pos (fromSlash_eq_nil_iff.2 hs), if_neg]
    exact fun h => (List.mem_append.1 h).elim hslash hs

/-- `acl_parse_url`, at the end of the host. -/
theorem aclParseUrl_eq {url p : CString} {port : Int} (h : dropScheme none url = some (p, port)) :
    aclParseUrl url =
      if 256 ≤ (p.takeWhile inHost).length ∨ p.takeWhile inHost = [] then none
      else
        some
          { host := p.takeWhile inHost
            port := aclPort port (p.dropWhile inHost)
            path := aclPath (p.dropWhile inHost) } := by
  obtain ⟨hcolon, hslash⟩ := not_mem_takeWhile_inHost p
  have hp : p.takeWhile inHost ++ p.dropWhile inHost = p := List.takeWhile_append_dropWhile
  have hhost : (p.takeWhile (· != '/')).takeWhile (· != ':') = p.takeWhile inHost := by
    rw [List.takeWhile_takeWhile]
    congr 1
    funext c
    rw [inHost, Bool.decide_and, Bool.decide_eq_true, Bool.decide_eq_true]
  have hport := aclPort_append hcolon hslash (behindHost_cases p) port
  have hpath := aclPath_append (s := p.dropWhile inHost) hslash
  rw [hp] at hport hpath
  rw [← hport, ← hpath, ← hhost]
  unfold aclParseUrl
  rw [h]
  rfl

/-! ## Where they agree -/

/-- The path is where the client looks for it, and fits the buffer. -/
def PathRead (s : CString) : Prop :=
  fromSlash s = [] ∨ fromSlash s = ['/'] ∨ (fromSlash s = s ∧ s.length ≤ 1023)

theorem fromSlash_eq_cons {s : CString} (h : fromSlash s ≠ []) : ∃ t, fromSlash s = '/' :: t := by
  have hhead := List.head_dropWhile_not (· != '/') h
  rw [bne_eq_false_iff_eq] at hhead
  exact ⟨_, (hhead ▸ List.cons_head_tail h).symm⟩

theorem fromSlash_dropWhile {p : Char → Bool} (hp : p '/' = false) (s : CString) :
    fromSlash (s.dropWhile p) = fromSlash s := by
  induction s with
  | nil => rfl
  | cons c s ih =>
      by_cases hc : p c = true
      · have hne : (c != '/') = true := bne_iff_ne.2 fun h => by
          rw [h, hp] at hc
          exact Bool.false_ne_true hc
        have hdrop : fromSlash (c :: s) = fromSlash s := List.dropWhile_cons_of_pos hne
        rw [List.dropWhile_cons_of_pos hc, ih, hdrop]
      · rw [List.dropWhile_cons_of_neg hc]

theorem fromSlash_sign (s : CString) : fromSlash (sign s).2 = fromSlash s := by
  unfold sign
  split
  · rfl
  · rfl
  · rfl

/-- `strtol` does not read a `/`. -/
theorem fromSlash_behindPort (s : CString) : fromSlash (behindPort s) = fromSlash s := by
  unfold behindPort
  split
  · next t =>
      rw [strtolEnd, fromSlash_dropWhile rfl, fromSlash_sign, fromSlash_dropWhile rfl]
      rfl
  · rfl

/-- A port the client takes is the one that was checked. -/
theorem clientPort_eq {port port' : Int} {s t : CString}
    (h : clientPort port s = some (port', t)) : port' = aclPort port s ∧ t = behindPort s := by
  unfold clientPort at h
  split at h
  · next u =>
      split at h
      · cases h
      · next hok =>
          cases h
          refine ⟨?_, rfl⟩
          simp only [Bool.or_eq_true, decide_eq_true_eq, not_or, Int.not_le] at hok
          obtain ⟨⟨-, hpos⟩, hle⟩ := hok
          rw [aclPort, atoi, Int.bmod_eq_of_le (by omega) (by omega)]
  · next hne =>
      cases h
      unfold aclPort behindPort
      split
      · next t => exact absurd rfl (hne t)
      · exact ⟨rfl, rfl⟩

/-- The path that is requested is the one that was checked, if it was read. -/
theorem clientPath_eq {s path : CString} (h : clientPath s = some path) :
    aclPath s = path ↔ PathRead s := by
  rw [aclPath, PathRead]
  by_cases hnil : fromSlash s = []
  · rw [if_pos hnil]
    refine iff_of_true ?_ (.inl hnil)
    unfold clientPath at h
    split at h
    · next t => cases hnil
    · cases h
      rfl
  · rw [if_neg hnil]
    unfold clientPath at h
    split at h
    · next t =>
        split at h
        · cases h
        · cases h
          have hself : fromSlash ('/' :: t) = '/' :: t := rfl
          rw [hself, List.take_eq_self_iff]
          constructor
          · exact fun hlen => .inr (.inr ⟨rfl, hlen⟩)
          · rintro (h | h | h)
            · cases h
            · rw [h]
              decide
            · exact h.2
    · next hne =>
        cases h
        obtain ⟨t, ht⟩ := fromSlash_eq_cons hnil
        have hself : fromSlash s ≠ s := by
          intro heq
          exact hne t (heq.symm.trans ht)
        rw [ht, List.take_succ_cons]
        constructor
        · intro heq
          have htake : t.take 1022 = [] := (List.cons_inj_right _).1 heq
          have hlen := congrArg List.length htake
          rw [List.length_take, List.length_nil] at hlen
          have ht' : t = [] := List.eq_nil_of_length_eq_zero (by omega)
          exact .inr (.inl (by rw [ht']))
        · rintro (h | h | h)
          · cases h
          · rw [List.cons_inj_right] at h
            rw [h, List.take_nil]
          · exact absurd (ht.trans h.1) hself

/-- The text behind the scheme and the host. -/
def behindHost (url : CString) : CString :=
  ((dropScheme none url).elim [] Prod.fst).dropWhile inHost

theorem dropScheme_of_none {url : CString} {r : CString × Int} (h : dropScheme none url = some r)
    (port : Int) : dropScheme (some port) url = some r := by
  unfold dropScheme at h ⊢
  split
  · next hhttps => rwa [if_pos hhttps] at h
  · next hhttps =>
      rw [if_neg hhttps] at h
      split
      · next hhttp => rwa [if_pos hhttp] at h
      · next hhttp =>
          rw [if_neg hhttp] at h
          cases h

/-- What the client makes of a URL, at the end of the host. -/
theorem parseUrl_eq_some {url p : CString} {port : Int} {b : Url}
    (hscheme : dropScheme (some 80) url = some (p, port)) (h : parseUrl url = some b) :
    b.host = p.takeWhile inHost ∧ ∃ s, clientPort port (p.dropWhile inHost) = some (b.port, s) ∧
      clientPath s = some b.path := by
  unfold parseUrl at h
  rw [hscheme] at h
  simp only [Option.bind_eq_bind, Option.bind_some] at h
  split at h
  · cases h
  · obtain ⟨⟨port', s⟩, hport, h⟩ := Option.bind_eq_some_iff.1 h
    obtain ⟨path, hpath, h⟩ := Option.bind_eq_some_iff.1 h
    cases h
    exact ⟨rfl, s, hport, hpath⟩

/-- Two readings of a URL differ in their paths, if at all. -/
theorem eq_iff_pathRead {url : CString} {a b : Url} (ha : aclParseUrl url = some a)
    (hb : parseUrl url = some b) : a = b ↔ PathRead (behindPort (behindHost url)) := by
  cases hscheme : dropScheme none url with
  | none =>
      unfold aclParseUrl at ha
      rw [hscheme] at ha
      cases ha
  | some r =>
      obtain ⟨p, port⟩ := r
      have hbehind : behindHost url = p.dropWhile inHost := by
        rw [behindHost, hscheme]
        rfl
      obtain ⟨hhost, s, hport, hpath⟩ :=
        parseUrl_eq_some (dropScheme_of_none hscheme 80) hb
      obtain ⟨hport', rfl⟩ := clientPort_eq hport
      rw [aclParseUrl_eq hscheme] at ha
      split at ha
      · cases ha
      · cases ha
        have hsame : aclPath (behindPort (p.dropWhile inHost)) = aclPath (p.dropWhile inHost) := by
          rw [aclPath, aclPath, fromSlash_behindPort]
        rw [hbehind, ← clientPath_eq hpath, hsame, ← hhost, ← hport']
        cases b
        simp

/-- The URL that passes the check is the one that is fetched. -/
def UrlAgrees (url : CString) : Prop :=
  ∀ a b, aclParseUrl url = some a → parseUrl url = some b → a = b

/-- The two take a URL apart alike exactly if, behind the host and the port, there is
no `/`, or one at the end, or one right there and no more than 1023 bytes. -/
theorem urlsAgree_iff (url : CString) :
    UrlAgrees url ↔
      ((aclParseUrl url).isSome → (parseUrl url).isSome →
        PathRead (behindPort (behindHost url))) := by
  constructor
  · intro h hacl hclient
    obtain ⟨a, ha⟩ := Option.isSome_iff_exists.1 hacl
    obtain ⟨b, hb⟩ := Option.isSome_iff_exists.1 hclient
    exact (eq_iff_pathRead ha hb).1 (h a b ha hb)
  · intro h a b ha hb
    refine (eq_iff_pathRead ha hb).2 (h ?_ ?_)
    · rw [ha]
      rfl
    · rw [hb]
      rfl

/-- The path is `/secret` for the policy, and `/` for the server. -/
theorem junk_behind_port : ¬ UrlAgrees "http://a:80x/secret".toList := by
  intro h
  have heq := h ⟨"a".toList, 80, "/secret".toList⟩ ⟨"a".toList, 80, "/".toList⟩ rfl rfl
  exact absurd (congrArg Url.path heq) (by decide)

end Limceron.Access
