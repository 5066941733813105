/-
# API keys (`server/src/auth.ts`)

`apiKeyMiddleware` lets a request through if no key is configured, and otherwise if the
request presents one of the configured keys.  The comment above it accepts the key in either
of two headers; the code looks at the second header only if the first one is no bearer
header (`admits_iff`).
-/
import Mathlib
import NexusQueue.Types

namespace NexusQueue

namespace Auth

/-! ## Strings -/

/-- White space and line terminators, as `trim` knows them. -/
def isSpace (c : Char) : Bool :=
  c.toNat ∈ [0x9, 0xA, 0xB, 0xC, 0xD, 0x20, 0xA0, 0x1680, 0x2028, 0x2029, 0x202F, 0x205F, 0x3000,
    0xFEFF] ∨ 0x2000 ≤ c.toNat ∧ c.toNat ≤ 0x200A

/-- `k.trim()`. -/
def trim (k : List Char) : String := .ofList ((k.dropWhile isSpace).rdropWhile isSpace)

/-- `raw.split(',')`. -/
def split (raw : String) : List (List Char) := raw.toList.splitOn ','

/-- `s.startsWith(start)`, and then the rest of the string. -/
def textAfter (start s : String) : Option String :=
  if start.toList.isPrefixOf s.toList then some (.ofList (s.toList.drop start.length)) else none

/-- Compare two strings byte by byte. -/
def timingSafeEqual (a b : String) : Bool :=
  let bufA := a.toUTF8
  let bufB := b.toUTF8
  if bufA.size ≠ bufB.size then false else bufA = bufB

/-- Strings with the same bytes are the same. -/
theorem timingSafeEqual_iff (a b : String) : timingSafeEqual a b = true ↔ a = b := by
  unfold timingSafeEqual
  constructor
  · intro h
    by_cases hsize : a.toUTF8.size ≠ b.toUTF8.size
    · simp only [if_pos hsize] at h
      cases h
    · simp only [if_neg hsize] at h
      exact String.toByteArray_inj.mp (of_decide_eq_true h)
  · rintro rfl
    simp

/-! ## The middleware -/

/-- The keys in the value of `API_KEYS`. -/
def keysOf (apiKeysRaw : String) : List String :=
  ((split apiKeysRaw).map trim).filter (· ≠ "")

/-- What a middleware does with a request: it hands it on, or it answers. -/
inductive Verdict where
  | next
  | answer (status : ℕ) (error message : String)
  deriving DecidableEq

/-- The answer to a request without a valid key. -/
def unauthorized : Verdict := .answer 401 "unauthorized" "Invalid or missing API key"

/-- The credential the middleware looks at. -/
def credential (authHeader xApiKey : Option String) : Option String :=
  match authHeader.bind (textAfter "Bearer ") with
  | some key => some key
  | none => truthy xApiKey

/-- The loop over the keys: is one of them the credential? -/
def matchKeys (key : String) (validKeys : List String) (matched : Bool) : Bool :=
  validKeys.foldl (fun matched validKey => if timingSafeEqual key validKey then true else matched)
    matched

/-- `apiKeyMiddleware`, for the value of `API_KEYS` and two headers. -/
def apiKeyMiddleware (apiKeysRaw authHeader xApiKey : Option String) : Verdict :=
  match truthy apiKeysRaw with
  | none => .next
  | some raw =>
      let validKeys := keysOf raw
      if validKeys.length = 0 then .next
      else
        match truthy (credential authHeader xApiKey) with
        | none => unauthorized
        | some key => if matchKeys key validKeys false = false then unauthorized else .next

/-- The loop finds the credential if it is one of the keys. -/
theorem matchKeys_iff (key : String) (validKeys : List String) (matched : Bool) :
    matchKeys key validKeys matched = true ↔ matched = true ∨ key ∈ validKeys := by
  unfold matchKeys
  induction validKeys generalizing matched with
  | nil => simp
  | cons k keys ih =>
      rw [List.foldl_cons, ih, List.mem_cons]
      by_cases hk : key = k
      · rw [if_pos ((timingSafeEqual_iff key k).mpr hk)]
        simp [hk]
      · rw [if_neg (fun h => hk ((timingSafeEqual_iff key k).mp h))]
        simp [hk]

/-! ## Either header -/

/-- The configured keys. -/
def configured (apiKeysRaw : Option String) : List String := apiKeysRaw.elim [] keysOf

/-- The credentials a request presents. -/
def Presents (authHeader xApiKey : Option String) (key : String) : Prop :=
  authHeader.bind (textAfter "Bearer ") = some key ∨ xApiKey = some key

/-- No key is configured, or the request presents one that is. -/
def Entitled (apiKeysRaw authHeader xApiKey : Option String) : Prop :=
  configured apiKeysRaw = [] ∨ ∃ key ∈ configured apiKeysRaw, Presents authHeader xApiKey key

/-- What the middleware is there for: exactly the entitled requests are handed on, and the
others are refused. -/
def Admits (apiKeysRaw authHeader xApiKey : Option String) : Prop :=
  (Entitled apiKeysRaw authHeader xApiKey → apiKeyMiddleware apiKeysRaw authHeader xApiKey = .next) ∧
    (¬ Entitled apiKeysRaw authHeader xApiKey →
      apiKeyMiddleware apiKeysRaw authHeader xApiKey = unauthorized)

/-- A bearer header whose text is no key hides a valid `X-API-Key`. -/
def Hidden (apiKeysRaw authHeader xApiKey : Option String) : Prop :=
  ∃ text key, authHeader.bind (textAfter "Bearer ") = some text ∧
    text ∉ configured apiKeysRaw ∧ xApiKey = some key ∧ key ∈ configured apiKeysRaw

/-- A configured key is not blank. -/
theorem ne_blank_of_configured {apiKeysRaw : Option String} {key : String}
    (h : key ∈ configured apiKeysRaw) : key ≠ "" := by
  cases apiKeysRaw with
  | none => cases h
  | some raw =>
      have hmem : key ∈ keysOf raw := h
      rw [keysOf, List.mem_filter] at hmem
      exact of_decide_eq_true hmem.2

/-- The middleware answers in one of two ways. -/
theorem next_or_unauthorized (apiKeysRaw authHeader xApiKey : Option String) :
    apiKeyMiddleware apiKeysRaw authHeader xApiKey = .next ∨
      apiKeyMiddleware apiKeysRaw authHeader xApiKey = unauthorized := by
  unfold apiKeyMiddleware
  split
  · exact Or.inl rfl
  · dsimp only
    split
    · exact Or.inl rfl
    · split
      · exact Or.inr rfl
      · split
        · exact Or.inr rfl
        · exact Or.inl rfl

/-- When it hands a request on, in terms of the configured keys. -/
theorem next_iff (apiKeysRaw authHeader xApiKey : Option String) :
    apiKeyMiddleware apiKeysRaw authHeader xApiKey = .next ↔
      configured apiKeysRaw = [] ∨
        ∃ key ∈ configured apiKeysRaw, credential authHeader xApiKey = some key := by
  cases apiKeysRaw with
  | none => exact iff_of_true rfl (Or.inl rfl)
  | some raw =>
      by_cases hraw : raw = ""
      · subst hraw
        exact iff_of_true rfl (Or.inl rfl)
      · show _ ↔ keysOf raw = [] ∨ ∃ key ∈ keysOf raw, credential authHeader xApiKey = some key
        rw [apiKeyMiddleware, truthy_some hraw]
        dsimp only
        by_cases hnone : keysOf raw = []
        · rw [if_pos (by rw [hnone]; rfl)]
          exact iff_of_true rfl (Or.inl hnone)
        · rw [if_neg fun h => hnone (List.length_eq_zero_iff.mp h), or_iff_right hnone]
          cases hcred : credential authHeader xApiKey with
          | none => simp [unauthorized]
          | some key =>
              by_cases hkey : key = ""
              · -- an empty credential is none, and no key is empty
                subst hkey
                have hnot : "" ∉ keysOf raw :=
                  fun h => ne_blank_of_configured (show "" ∈ configured (some raw) from h) rfl
                simp [unauthorized, hnot]
              · rw [truthy_some hkey]
                have hmatch := matchKeys_iff key (keysOf raw) false
                by_cases hmem : key ∈ keysOf raw
                · simp [hmatch.mpr (Or.inr hmem), hmem]
                · have hfalse : matchKeys key (keysOf raw) false = false := by
                    rw [← Bool.not_eq_true, hmatch]
                    simp [hmem]
                  simp [hfalse, hmem, unauthorized]

/-- The middleware looks at one of the credentials the request presents, and at the right one
unless that is hidden. -/
theorem credential_iff (apiKeysRaw authHeader xApiKey : Option String)
    (h : ¬ Hidden apiKeysRaw authHeader xApiKey) :
    (∃ key ∈ configured apiKeysRaw, credential authHeader xApiKey = some key) ↔
      ∃ key ∈ configured apiKeysRaw, Presents authHeader xApiKey key := by
  constructor
  · rintro ⟨key, hkey, hcred⟩
    refine ⟨key, hkey, ?_⟩
    unfold credential at hcred
    split at hcred
    · rename_i text htext
      cases hcred
      exact Or.inl htext
    · exact Or.inr (Option.filter_eq_some_iff.mp hcred).1
  · rintro ⟨key, hkey, hbearer | hx⟩
    · exact ⟨key, hkey, by rw [credential, hbearer]⟩
    · cases hbearer : authHeader.bind (textAfter "Bearer ") with
      | none =>
          refine ⟨key, hkey, ?_⟩
          rw [credential, hbearer, hx]
          exact truthy_some (ne_blank_of_configured hkey)
      | some text =>
          by_cases htext : text ∈ configured apiKeysRaw
          · exact ⟨text, htext, by rw [credential, hbearer]⟩
          · exact absurd ⟨text, key, hbearer, htext, hx, hkey⟩ h

/-- **Either header admits a request, unless the first one hides the second.**  The
middleware hands on exactly the entitled requests and refuses the others with a 401 if and
only if the request has no bearer text that is no configured key beside a valid
`X-API-Key`. -/
theorem admits_iff (apiKeysRaw authHeader xApiKey : Option String) :
    Admits apiKeysRaw authHeader xApiKey ↔ ¬ Hidden apiKeysRaw authHeader xApiKey := by
  constructor
  · rintro ⟨hnext, -⟩ ⟨text, key, hbearer, htext, hx, hkey⟩
    have hpass := hnext (Or.inr ⟨key, hkey, Or.inr hx⟩)
    rcases (next_iff _ _ _).mp hpass with hnone | ⟨key', hkey', hcred⟩
    · rw [hnone] at hkey
      cases hkey
    · rw [credential, hbearer] at hcred
      cases hcred
      exact htext hkey'
  · intro h
    have hnext : apiKeyMiddleware apiKeysRaw authHeader xApiKey = .next ↔
        Entitled apiKeysRaw authHeader xApiKey := by
      rw [next_iff, credential_iff _ _ _ h]
      rfl
    refine ⟨hnext.mpr, fun hent => ?_⟩
    rcases next_or_unauthorized apiKeysRaw authHeader xApiKey with hpass | hrefused
    · exact absurd (hnext.mp hpass) hent
    · exact hrefused

/-- A valid `X-API-Key` beside the bearer header of another scheme is refused. -/
theorem refused_beside_bearer :
    Entitled (some " k1 ,, k2") (some "Bearer token") (some "k2") ∧
      apiKeyMiddleware (some " k1 ,, k2") (some "Bearer token") (some "k2") = unauthorized ∧
      ¬ Admits (some " k1 ,, k2") (some "Bearer token") (some "k2") := by
  have hkeys : configured (some " k1 ,, k2") = ["k1", "k2"] := by decide
  have hbearer : (some "Bearer token").bind (textAfter "Bearer ") = some "token" := by decide
  refine ⟨Or.inr ⟨"k2", by rw [hkeys]; decide, Or.inr rfl⟩, by decide, ?_⟩
  rw [admits_iff, not_not]
  exact ⟨"token", "k2", hbearer, by rw [hkeys]; decide, rfl, by rw [hkeys]; decide⟩

end Auth

end NexusQueue
