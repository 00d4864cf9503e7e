import Fxp.Book
import Fxp.Lib.Heap
import Fxp.Lib.Machine

/-!
# Tokens

A logon carries a signed token. With the replay cache on, the gateway remembers the ids of the tokens it has accepted
until they expire, and accepts no token twice.
-/

namespace Fxp.Gateway

open List Option

structure JwtHeader where
  alg : String
  kid : String
deriving DecidableEq

structure JwtClaims where
  sub : String
  exp : Int
  iat : Int
  nbf : Int
  iss : String
  aud : List String
  jti : String
  role : String
deriving DecidableEq

/-- The library functions that the gateway calls: `base64`, `json`, the signature and the formats of `strconv`. -/
structure Codec where
  decodeString : String → Except String (List UInt8)
  unmarshalHeader : List UInt8 → Except String JwtHeader
  unmarshalClaims : List UInt8 → Except String JwtClaims
  sign : String → String → String
  quote : String → String
  atoi : String → Option Int

structure JwtConfig where
  currentKid : String
  keys : HashMap String
  issuer : String
  audience : String
  leeway : Int
  replay : Bool

/-- The environment; a variable that is not set is empty. -/
abbrev Env := String → String

def envOr (env : Env) (name default : String) : String := if env name ≠ "" then env name else default

def envBool (env : Env) (name : String) : Bool := (env name).toLower ∈ ["1", "on", "true", "yes"]

variable (lib : Codec)

def envInt (env : Env) (name : String) (default : Int) : Int :=
  if env name = "" then default
  else
    match lib.atoi (env name) with
    | some n => if n ≤ 0 then default else n
    | none => default

/-- Nothing when the secret is not set, where the code panics. -/
def loadJWTConfig (env : Env) : Option JwtConfig :=
  if env "FXP_JWT_SECRET" = "" then none
  else
    let currentKid := env "FXP_JWT_KID"
    let keys : HashMap String := (∅ : HashMap String).insert "" (env "FXP_JWT_SECRET")
    let keys := if currentKid ≠ "" then keys.insert currentKid (env "FXP_JWT_SECRET") else keys
    let pk := env "FXP_JWT_PREVIOUS_KID"
    let ps := env "FXP_JWT_PREVIOUS_SECRET"
    let keys := if pk ≠ "" ∧ ps ≠ "" ∧ pk ≠ currentKid then keys.insert pk ps else keys
    some
      { currentKid
        keys
        issuer := envOr env "FXP_JWT_ISSUER" "fxp-dev"
        audience := envOr env "FXP_JWT_AUDIENCE" "fxp-gateway"
        leeway := envInt lib env "FXP_JWT_LEEWAY_SEC" 30
        replay := envBool env "FXP_JWT_REPLAY_CACHE" }

def quoteAll (l : List String) : String := "[" ++ " ".intercalate (l.map lib.quote) ++ "]"

/-- `validateJWT` from the settings to the clock: the header, the signature and the claims. -/
def checkToken (cfg : JwtConfig) (header payload signature : String) : Except String (JwtHeader × JwtClaims) := do
  let headerBytes ← (lib.decodeString header).mapError ("JWT header decode failed: " ++ ·)
  let hdr ← (lib.unmarshalHeader headerBytes).mapError ("JWT header unmarshal failed: " ++ ·)
  if hdr.alg ≠ "HS256" then .error ("JWT alg " ++ lib.quote hdr.alg ++ " not allowed: only HS256 is accepted")
  else
    match cfg.keys[hdr.kid]? with
    | none => .error ("JWT kid " ++ lib.quote hdr.kid ++ " is not a configured key")
    | some key =>
      if signature ≠ lib.sign key (header ++ "." ++ payload) then .error "JWT signature verification failed"
      else
        let payloadBytes ← (lib.decodeString payload).mapError ("JWT payload decode failed: " ++ ·)
        let claims ← (lib.unmarshalClaims payloadBytes).mapError ("JWT claims unmarshal failed: " ++ ·)
        if claims.sub = "" then .error "JWT missing required claim: sub"
        else if claims.exp = 0 then .error "JWT missing required claim: exp"
        else if claims.iat = 0 then .error "JWT missing required claim: iat"
        else if claims.iss ≠ cfg.issuer then
          .error ("JWT iss " ++ lib.quote claims.iss ++ " does not match the configured issuer")
        else if cfg.audience ∉ claims.aud then
          .error ("JWT aud " ++ quoteAll lib claims.aud ++ " does not include the configured audience")
        else .ok (hdr, claims)

/-- The next check, with the clock. -/
def checkClock (cfg : JwtConfig) (claims : JwtClaims) (now : Int) : Except String Unit :=
  if now > claims.exp then .error ("JWT expired at " ++ toString claims.exp)
  else if claims.nbf ≠ 0 ∧ now + cfg.leeway < claims.nbf then
    .error ("JWT not valid before " ++ toString claims.nbf ++ " (nbf)")
  else if cfg.replay ∧ claims.jti = "" then .error "JWT missing required claim: jti (replay cache is on)"
  else .ok ()

structure JtiKey where
  iss : String
  kid : String
  jti : String
deriving DecidableEq

structure JtiEntry where
  key : JtiKey
  exp : Int
deriving DecidableEq

/-- The expiry of each remembered key, and a heap of the entries by expiry. -/
structure JtiCache where
  seen : JtiKey → Option Int := fun _ => none
  byExp : List JtiEntry := []

namespace JtiCache

def less (a b : JtiEntry) : Bool := a.exp < b.exp

/-- One round of the loop of `firstUse`: the entry at the root of the heap goes when it has expired. -/
def pruneStep (now : Int) (c : JtiCache) : Option JtiCache :=
  match c.byExp with
  | [] => none
  | root :: _ =>
    if root.exp < now then
      (Heap.pop less c.byExp).map fun (e, byExp) =>
        { seen := if (c.seen e.key).getD 0 = e.exp then Function.update c.seen e.key none else c.seen, byExp }
    else none

def prune (now : Int) (c : JtiCache) : JtiCache := Loop.run (pruneStep now) (c.byExp.length + 1) c

/-- Records a key, and says whether it had not been seen before. -/
def firstUse (key : JtiKey) (exp now : Int) (c : JtiCache) : Bool × JtiCache :=
  let c := c.prune now
  if (c.seen key).isSome then (false, c)
  else (true, { seen := Function.update c.seen key (some exp), byExp := Heap.push less c.byExp ⟨key, exp⟩ })

variable {key : JtiKey} {exp now : Int} {c c' : JtiCache}

private theorem pruneStep_eq (h : c.pruneStep now = some c') : ∃ root rest byExp, c.byExp = root :: rest ∧
    root.exp < now ∧ byExp.length = rest.length ∧
    c' =
      { seen := if (c.seen root.key).getD 0 = root.exp then Function.update c.seen root.key none else c.seen
        byExp } := by
  unfold pruneStep at h
  split at h
  · cases h
  rename_i root rest hroot
  split at h
  · rename_i hexp
    obtain ⟨byExp, hpop, hlength⟩ := Heap.pop_cons less root rest
    rw [hroot, hpop] at h
    cases h
    exact ⟨root, rest, byExp, hroot, hexp, hlength, rfl⟩
  · cases h

/-- The loop ends by itself: what is at the root has not expired. -/
theorem prune_done (now : Int) (c : JtiCache) : (c.prune now).pruneStep now = none := by
  refine Loop.run_done (P := fun _ => True) (fun c => c.byExp.length) (fun c _ _ h => ⟨trivial, ?_⟩) trivial
    (Nat.lt_succ_self _)
  obtain ⟨_, _, byExp, hroot, -, hlength, rfl⟩ := pruneStep_eq h
  show byExp.length < c.byExp.length
  rw [hroot, hlength]
  exact Nat.lt_succ_self _

private theorem prune_seen {k} {e : Int} (hk : c.seen k = some e) : (c.prune now).seen k = some e ∨ e < now := by
  refine Loop.run_induct (P := fun c' : JtiCache => c'.seen k = some e ∨ e < now) (fun c₁ _ h₁ hstep => ?_) _ (.inl hk)
  rcases h₁ with h₁ | h₁
  · obtain ⟨root, _, _, -, hexp, -, rfl⟩ := pruneStep_eq hstep
    by_cases hsame : root.key = k
    · by_cases hroot : e = root.exp
      · right
        rw [hroot]
        exact hexp
      · left
        rw [hsame, h₁]
        simpa [hroot] using h₁
    · left
      show (if (c₁.seen root.key).getD 0 = root.exp then Function.update c₁.seen root.key none else c₁.seen) k = some e
      split
      · rw [Function.update_of_ne (Ne.symm hsame)]
        exact h₁
      · exact h₁
  · exact .inr h₁

/-- What a call does to the cache: it remembers its key when it is the first, and forgets only what has expired. -/
theorem firstUse_spec (key : JtiKey) (exp now : Int) (c : JtiCache) :
    ((c.firstUse key exp now).1 = true → (c.firstUse key exp now).2.seen key = some exp ∧
      ∀ e, c.seen key = some e → e < now) ∧
    ∀ k e, c.seen k = some e → (c.firstUse key exp now).2.seen k = some e ∨ e < now := by
  simp only [firstUse]
  split
  · exact ⟨fun h => absurd h Bool.false_ne_true, fun k e hk => prune_seen hk⟩
  rename_i hnew
  rw [not_isSome_iff_eq_none] at hnew
  have hexpired : ∀ e, c.seen key = some e → e < now := by
    intro e he
    rcases prune_seen he with h | h
    · rw [hnew] at h
      cases h
    · exact h
  refine ⟨fun _ => ⟨Function.update_self .., hexpired⟩, fun k e hk => ?_⟩
  by_cases hkey : k = key
  · subst hkey
    exact .inr (hexpired e hk)
  show Function.update (c.prune now).seen key (some exp) k = some e ∨ e < now
  rw [Function.update_of_ne hkey]
  exact prune_seen hk

end JtiCache

/-- How far a call of `validateJWT` has come. -/
inductive Validation
  /-- The token is genuine; the clock has not been read. -/
  | checked (cfg : JwtConfig) (hdr : JwtHeader) (claims : JwtClaims)
  /-- The token is valid at the time `now`; the cache has not been asked. -/
  | timed (hdr : JwtHeader) (claims : JwtClaims) (now : Int)
  /-- The cache has answered, and the token is accepted if `first`. -/
  | answered (hdr : JwtHeader) (claims : JwtClaims) (now : Int) (first : Bool)
  /-- Accepted without the cache. -/
  | passed (hdr : JwtHeader) (claims : JwtClaims)
  | rejected (err : String)
  | panicked

def Validation.start (env : Env) (token : String) : Validation :=
  match (token.toList.splitOn '.').map String.ofList with
  | [header, payload, signature] =>
    match loadJWTConfig lib env with
    | none => .panicked
    | some cfg =>
      match checkToken lib cfg header payload signature with
      | .error err => .rejected err
      | .ok (hdr, claims) => .checked cfg hdr claims
  | parts => .rejected ("malformed JWT: expected 3 parts, got " ++ toString parts.length)

def Validation.readClock (cfg : JwtConfig) (hdr : JwtHeader) (claims : JwtClaims) (now : Int) : Validation :=
  match checkClock cfg claims now with
  | .error err => .rejected err
  | .ok () => if cfg.replay then .timed hdr claims now else .passed hdr claims

def replayKey (hdr : JwtHeader) (claims : JwtClaims) : JtiKey := ⟨claims.iss, hdr.kid, claims.jti⟩

structure Auth where
  clock : Int
  cache : JtiCache := {}
  calls : List Validation := []

inductive Auth.Action
  | start (env : Env) (token : String)
  | readClock (call : Nat)
  /-- `firstUse`, under the lock of the cache. -/
  | enterCache (call : Nat)
  | elapse (seconds : Nat)

def Auth.step : Auth.Action → Auth → Option Auth
  | .start env token, s => some { s with calls := s.calls ++ [.start lib env token] }
  | .readClock i, s =>
    match s.calls[i]? with
    | some (.checked cfg hdr claims) => some { s with calls := s.calls.set i (.readClock cfg hdr claims s.clock) }
    | _ => none
  | .enterCache i, s =>
    match s.calls[i]? with
    | some (.timed hdr claims now) =>
      let r := s.cache.firstUse (replayKey hdr claims) claims.exp now
      some { s with cache := r.2, calls := s.calls.set i (.answered hdr claims now r.1) }
    | _ => none
  | .elapse t, s => some { s with clock := s.clock + t }

/-- The token that a call has accepted: its key and its expiry. -/
def Validation.token : Validation → Option (JtiKey × Int)
  | .answered hdr claims _ true => some (replayKey hdr claims, claims.exp)
  | .passed hdr claims => some (replayKey hdr claims, claims.exp)
  | _ => none

/-- The clock that a call has brought to the cache. -/
def Validation.served : Validation → Option Int
  | .answered _ _ now _ => some now
  | _ => none

/-- The replay cache is on in every call. -/
def replayOn : Auth.Action → Auth → Prop
  | .start env _, _ => envBool env "FXP_JWT_REPLAY_CACHE" = true
  | _, _ => True

/-- A call for a token that has been accepted enters the cache before any call with a clock past the expiry of the
token. -/
def entersInTime (a : Auth.Action) (s : Auth) : Prop :=
  match a with
  | .enterCache i =>
    match s.calls[i]? with
    | some (.timed hdr claims _) => some (replayKey hdr claims, claims.exp) ∈ s.calls.map Validation.token →
        ∀ now ∈ s.calls.filterMap Validation.served, now ≤ claims.exp
    | _ => True
  | _ => True

instance : (a : Auth.Action) → (s : Auth) → Decidable (replayOn a s)
  | .start env _, _ => inferInstanceAs (Decidable (envBool env "FXP_JWT_REPLAY_CACHE" = true))
  | .readClock _, _ | .enterCache _, _ | .elapse _, _ => .isTrue trivial

instance (a : Auth.Action) (s : Auth) : Decidable (entersInTime a s) := by
  unfold entersInTime
  split
  · split <;> infer_instance
  · exact .isTrue trivial

/-- A call past the clock read it before its token expired, and an accepted token is cached until a call with a later
clock comes. -/
structure Auth.Inv (s : Auth) : Prop where
  on : ∀ cfg hdr claims, .checked cfg hdr claims ∈ s.calls → cfg.replay = true
  cached : ∀ hdr claims, .passed hdr claims ∉ s.calls
  timed : ∀ hdr claims now, .timed hdr claims now ∈ s.calls → now ≤ claims.exp
  kept : ∀ key exp, some (key, exp) ∈ s.calls.map Validation.token →
    s.cache.seen key = some exp ∨ ∃ now, some now ∈ s.calls.map Validation.served ∧ exp < now
  once : ∀ (i j : Nat) t, (s.calls.map Validation.token)[i]? = some (some t) →
    (s.calls.map Validation.token)[j]? = some (some t) → i = j

variable {lib : Codec} {s s' : Auth}

theorem Validation.start_cases (lib : Codec) (env : Env) (token : String) :
    (∃ cfg hdr claims, loadJWTConfig lib env = some cfg ∧ Validation.start lib env token = .checked cfg hdr claims) ∨
      (∃ err, Validation.start lib env token = .rejected err) ∨ Validation.start lib env token = .panicked := by
  unfold Validation.start
  split
  · split
    · exact .inr (.inr rfl)
    rename_i cfg hcfg
    split
    · exact .inr (.inl ⟨_, rfl⟩)
    · exact .inl ⟨cfg, _, _, hcfg, rfl⟩
  · exact .inr (.inl ⟨_, rfl⟩)

private theorem loadJWTConfig_replay {env cfg} (h : loadJWTConfig lib env = some cfg) :
    cfg.replay = envBool env "FXP_JWT_REPLAY_CACHE" := by
  unfold loadJWTConfig at h
  split at h
  · cases h
  · cases h
    rfl

theorem Validation.readClock_cases {cfg} (hdr : JwtHeader) (claims : JwtClaims) (now : Int)
    (hreplay : cfg.replay = true) :
    (Validation.readClock cfg hdr claims now = .timed hdr claims now ∧ now ≤ claims.exp) ∨
      ∃ err, Validation.readClock cfg hdr claims now = .rejected err := by
  unfold Validation.readClock checkClock
  by_cases hexp : now > claims.exp
  · exact .inr ⟨_, by rw [if_pos hexp]⟩
  rw [if_neg hexp, hreplay]
  split
  · exact .inr ⟨_, rfl⟩
  · exact .inl ⟨rfl, by omega⟩

theorem Auth.Inv.new (clock : Int) : Auth.Inv { clock } where
  on _ _ _ h := absurd h not_mem_nil
  cached _ _ := not_mem_nil
  timed _ _ _ h := absurd h not_mem_nil
  kept _ _ h := absurd h not_mem_nil
  once _ _ _ h _ := by simp at h

theorem Auth.Inv.start (h : s.Inv) {st} (htoken : st.token = none)
    (hon : ∀ cfg hdr claims, st = .checked cfg hdr claims → cfg.replay = true)
    (hpassed : ∀ hdr claims, st ≠ .passed hdr claims)
    (htimed : ∀ hdr claims now, st ≠ .timed hdr claims now) : Auth.Inv { s with calls := s.calls ++ [st] } := by
  have hmem : ∀ {st'}, st' ∈ s.calls ++ [st] → st' ∈ s.calls ∨ st' = st := fun hst' => by
    simpa using hst'
  have hindex : ∀ {i : Nat} {t}, ((s.calls ++ [st]).map Validation.token)[i]? = some (some t) →
      (s.calls.map Validation.token)[i]? = some (some t) := by
    intro i t ht
    rw [map_append, map_cons, htoken, map_nil] at ht
    rw [getElem?_append] at ht
    split at ht
    · exact ht
    rw [getElem?_singleton] at ht
    split at ht <;> cases ht
  refine ⟨fun cfg hdr claims hst => ?_, fun hdr claims hst => ?_, fun hdr claims now hst => ?_, fun key exp hst => ?_,
    fun i j t hi hj => h.once i j t (hindex hi) (hindex hj)⟩
  · rcases hmem hst with hst | hst
    · exact h.on cfg hdr claims hst
    · exact hon cfg hdr claims hst.symm
  · rcases hmem hst with hst | hst
    · exact h.cached hdr claims hst
    · exact hpassed hdr claims hst.symm
  · rcases hmem hst with hst | hst
    · exact h.timed hdr claims now hst
    · exact absurd hst.symm (htimed hdr claims now)
  rw [map_append, map_cons, htoken] at hst
  have hst : some (key, exp) ∈ s.calls.map Validation.token := by simpa using hst
  refine (h.kept key exp hst).imp_right ?_
  rintro ⟨now, hnow, hlt⟩
  refine ⟨now, ?_, hlt⟩
  rw [map_append]
  exact mem_append_left _ hnow

private theorem map_set_of_eq {α β : Type} {f : α → β} {l : List α} {i : Nat} {a b : α} (hi : l[i]? = some a)
    (hf : f b = f a) : (l.set i b).map f = l.map f := by
  rw [map_set, hf]
  refine ext_getElem? fun _ => ?_
  rw [getElem?_set]
  split
  · rename_i hk
    subst hk
    obtain ⟨_, -⟩ := List.getElem?_eq_some_iff.mp hi
    rw [if_pos (by rwa [length_map]), getElem?_map, hi]
    rfl
  · rfl

theorem Auth.Inv.readClock (h : s.Inv) {i : Nat} {cfg : JwtConfig} {hdr : JwtHeader} {claims : JwtClaims}
    (hi : s.calls[i]? = some (.checked cfg hdr claims)) :
    Auth.Inv { s with calls := s.calls.set i (.readClock cfg hdr claims s.clock) } := by
  have hon := h.on cfg hdr claims (mem_of_getElem? hi)
  obtain ⟨st, hst⟩ : ∃ st, st = Validation.readClock cfg hdr claims s.clock := ⟨_, rfl⟩
  have hcases := Validation.readClock_cases hdr claims s.clock hon
  rw [← hst] at hcases ⊢
  have htoken : st.token = none ∧ st.served = none := by
    rcases hcases with ⟨rfl, -⟩ | ⟨err, rfl⟩ <;> exact ⟨rfl, rfl⟩
  refine ⟨fun _ hdr' claims' hmem => ?_, fun hdr' claims' hmem => ?_, fun hdr' claims' _ hmem => ?_, ?_, ?_⟩
  · rcases mem_or_eq_of_mem_set hmem with hmem | heq
    · exact h.on _ _ _ hmem
    · rcases hcases with ⟨rfl, -⟩ | ⟨err, rfl⟩ <;> cases heq
  · rcases mem_or_eq_of_mem_set hmem with hmem | heq
    · exact h.cached _ _ hmem
    · rcases hcases with ⟨rfl, -⟩ | ⟨err, rfl⟩ <;> cases heq
  · rcases mem_or_eq_of_mem_set hmem with hmem | heq
    · exact h.timed _ _ _ hmem
    rcases hcases with ⟨rfl, hle⟩ | ⟨_, rfl⟩
    · cases heq
      exact hle
    · cases heq
  · rw [map_set_of_eq hi htoken.1, map_set_of_eq hi htoken.2]
    exact h.kept
  · rw [map_set_of_eq hi htoken.1]
    exact h.once

theorem Auth.Inv.enterCache (h : s.Inv) {i : Nat} {hdr claims} {now : Int}
    (hi : s.calls[i]? = some (.timed hdr claims now)) (htime : entersInTime (.enterCache i) s) :
    Auth.Inv
      { s with
        cache := (s.cache.firstUse (replayKey hdr claims) claims.exp now).2
        calls := s.calls.set i
          (.answered hdr claims now (s.cache.firstUse (replayKey hdr claims) claims.exp now).1) } := by
  obtain ⟨hfirst, hseen⟩ := JtiCache.firstUse_spec (replayKey hdr claims) claims.exp now s.cache
  obtain ⟨⟨first, cache⟩, hr⟩ : ∃ r, r = s.cache.firstUse (replayKey hdr claims) claims.exp now := ⟨_, rfl⟩
  rw [← hr] at hfirst hseen ⊢
  have hle := h.timed hdr claims now (mem_of_getElem? hi)
  obtain ⟨_, -⟩ := List.getElem?_eq_some_iff.mp hi
  rw [entersInTime, hi] at htime
  -- the token has not been accepted, if the cache calls this the first use
  have hnew : first = true → some (replayKey hdr claims, claims.exp) ∉ s.calls.map Validation.token := by
    intro hf hmem
    rcases h.kept _ _ hmem with hkept | ⟨now', hnow', _⟩
    · have := (hfirst hf).2 _ hkept
      omega
    obtain ⟨st, hst, hserved⟩ := mem_map.mp hnow'
    have := htime hmem now' (mem_filterMap.mpr ⟨st, hst, hserved⟩)
    omega
  have htoken : ∀ (k : Nat) t, ((s.calls.set i (.answered hdr claims now first)).map Validation.token)[k]? =
      some (some t) →
      (k = i ∧ first = true ∧ t = (replayKey hdr claims, claims.exp)) ∨
      (s.calls.map Validation.token)[k]? = some (some t) := by
    intro k t ht
    rw [map_set, getElem?_set] at ht
    split at ht
    · rename_i hk
      rw [if_pos (by rwa [length_map])] at ht
      cases first with
      | true =>
        cases ht
        exact .inl ⟨hk.symm, rfl, rfl⟩
      | false => cases ht
    · exact .inr ht
  refine ⟨fun _ hdr' claims' hmem => ?_, fun hdr' claims' hmem => ?_, fun hdr' claims' now' hmem => ?_,
    fun key exp hmem => ?_, fun j k t hj hk => ?_⟩
  · rcases mem_or_eq_of_mem_set hmem with hmem | heq
    · exact h.on _ _ _ hmem
    · cases heq
  · rcases mem_or_eq_of_mem_set hmem with hmem | heq
    · exact h.cached _ _ hmem
    · cases heq
  · rcases mem_or_eq_of_mem_set hmem with hmem | heq
    · exact h.timed _ _ _ hmem
    · cases heq
  · obtain ⟨k, hk⟩ := mem_iff_getElem?.mp hmem
    rcases htoken k _ hk with ⟨-, hf, heq⟩ | hold
    · cases heq
      exact .inl (hfirst hf).1
    have hserved : ∀ now', (now' = now ∨ some now' ∈ s.calls.map Validation.served) →
        some now' ∈ (s.calls.set i (.answered hdr claims now first)).map Validation.served := by
      intro now' hnow'
      rw [map_set]
      rcases hnow' with rfl | hnow'
      · exact mem_set (by rwa [length_map]) _
      obtain ⟨j, hj⟩ := mem_iff_getElem?.mp hnow'
      refine mem_iff_getElem?.mpr ⟨j, ?_⟩
      rw [getElem?_set_ne, hj]
      rintro rfl
      rw [getElem?_map, hi] at hj
      cases hj
    rcases h.kept key exp (mem_of_getElem? hold) with hkept | ⟨now', hnow', hlater⟩
    · rcases hseen key exp hkept with hkept | hlater
      · exact .inl hkept
      · exact .inr ⟨now, hserved now (.inl rfl), hlater⟩
    · exact .inr ⟨now', hserved now' (.inr hnow'), hlater⟩
  · rcases htoken j t hj with ⟨rfl, hf, rfl⟩ | hj' <;> rcases htoken k _ hk with ⟨rfl, hf', heq⟩ | hk'
    · rfl
    · exact absurd (mem_of_getElem? hk') (hnew hf)
    · subst heq
      exact absurd (mem_of_getElem? hj') (hnew hf')
    · exact h.once j k t hj' hk'

theorem Auth.Inv.step (h : s.Inv) {a} (hok : replayOn a s ∧ entersInTime a s) (hs : Auth.step lib a s = some s') :
    s'.Inv := by
  cases a with
  | start env token =>
    cases hs
    have hreplay : envBool env "FXP_JWT_REPLAY_CACHE" = true := hok.1
    rcases Validation.start_cases lib env token with ⟨_, _, _, hcfg, hst⟩ | ⟨_, hst⟩ | hst <;> rw [hst]
    · refine h.start rfl ?_ nofun nofun
      rintro _ _ _ heq
      cases heq
      rw [loadJWTConfig_replay hcfg, hreplay]
    · exact h.start rfl nofun nofun nofun
    · exact h.start rfl nofun nofun nofun
  | readClock =>
    simp only [Auth.step] at hs
    split at hs
    · rename_i hi
      cases hs
      exact h.readClock hi
    · cases hs
  | enterCache =>
    simp only [Auth.step] at hs
    split at hs
    · rename_i hi
      cases hs
      exact h.enterCache hi hok.2
    · cases hs
  | elapse =>
    cases hs
    exact ⟨h.on, h.cached, h.timed, h.kept, h.once⟩

/-- No token is accepted twice, if a call for an accepted token always enters the cache before any call with a clock
past its expiry. -/
theorem token_accepted_once (lib : Codec) {clock : Int}
    (h : Machine.Reach (Auth.step lib) (fun a s => replayOn a s ∧ entersInTime a s) { clock } s) {i j : Nat}
    {a b : Validation}
    {t : JtiKey × Int} (ha : s.calls[i]? = some a) (hb : s.calls[j]? = some b) (hta : a.token = some t)
    (htb : b.token = some t) : i = j := by
  have hinv : s.Inv := h.invariant (.new clock) fun hinv hok hs => hinv.step hok hs
  refine hinv.once i j t ?_ ?_
  · rw [getElem?_map, ha, map_some, hta]
  · rw [getElem?_map, hb, map_some, htb]

/-- Texts that stand for themselves: the payload is the id of the token, and a signature is the secret and what is
signed. -/
def Codec.sample : Codec where
  decodeString s := .ok s.toUTF8.toList
  unmarshalHeader _ := .ok { alg := "HS256", kid := "" }
  unmarshalClaims b := .ok
    { sub := "a", exp := if b = "T".toUTF8.toList then 100 else 200, iat := 50, nbf := 0, iss := "fxp-dev",
      aud := ["fxp-gateway"], jti := if b = "T".toUTF8.toList then "T" else "U", role := "" }
  sign secret data := secret ++ String.ofList (data.toList.filter (· ≠ '.'))
  quote s := s
  atoi _ := none

def Env.sample : Env := fun name =>
  if name = "FXP_JWT_SECRET" then "secret" else if name = "FXP_JWT_REPLAY_CACHE" then "on" else ""

/-- The token `T` expires at 100 and is used twice; `U` is another token. -/
def Auth.sample : List Auth.Action :=
  [.start .sample "h.T.secrethT", .readClock 0, .enterCache 0, .start .sample "h.T.secrethT", .readClock 1,
    .start .sample "h.U.secrethU", .elapse 1, .readClock 2]

/-- The second use comes to the cache in time, and is not accepted. -/
theorem token_accepted_once_replayed :
    ∃ s, Machine.Reach (Auth.step .sample) (fun a s => replayOn a s ∧ entersInTime a s) { clock := 100 } s ∧
      s.calls.map Validation.served = [some 100, some 100, some 101] ∧
    (s.calls.map Validation.token)[1]? ≠ (s.calls.map Validation.token)[0]? := by
  obtain ⟨s, hreach, hs⟩ := Machine.Reach.of_exec (Auth.sample ++ [.enterCache 1, .enterCache 2])
    (.refl : Machine.Reach (Auth.step .sample) (fun a s => replayOn a s ∧ entersInTime a s) { clock := 100 } _)
    (P := fun s => s.calls.map Validation.served = [some 100, some 100, some 101] ∧
      (s.calls.map Validation.token)[0]? = some (some (⟨"fxp-dev", "", "T"⟩, 100))) (by decide +kernel)
  rw [decide_eq_true_eq] at hs
  refine ⟨s, hreach, hs.1, fun heq => ?_⟩
  rw [hs.2, getElem?_map, map_eq_some_iff] at heq
  rw [getElem?_map, map_eq_some_iff] at hs
  obtain ⟨-, _, ha, hta⟩ := hs
  obtain ⟨_, hb, htb⟩ := heq
  exact absurd (token_accepted_once .sample hreach ha hb hta htb) (by decide)

/-- What a call brings to the cache if it reads the clock as `now`. -/
def Validation.brings (lib : Codec) (env : Env) (token : String) (now : Int) : Option (JtiKey × Int) :=
  match Validation.start lib env token with
  | .checked cfg hdr claims => (checkClock cfg claims now).toOption.map fun _ => (replayKey hdr claims, claims.exp)
  | _ => none

theorem Validation.of_brings {env token} {now : Int} {t}
    (henv : envBool env "FXP_JWT_REPLAY_CACHE" = true) (h : Validation.brings lib env token now = some t) :
    ∃ cfg hdr claims, Validation.start lib env token = .checked cfg hdr claims ∧
      Validation.readClock cfg hdr claims now = .timed hdr claims now ∧ (replayKey hdr claims, claims.exp) = t := by
  rw [Validation.brings] at h
  rcases Validation.start_cases lib env token with ⟨cfg, hdr, claims, hcfg, hst⟩ | ⟨_, hst⟩ | hst <;> rw [hst] at h
  · obtain ⟨_, hclock, h⟩ := map_eq_some_iff.mp h
    refine ⟨cfg, hdr, claims, hst, ?_, h⟩
    cases hc : checkClock cfg claims now with
    | error => rw [hc] at hclock; cases hclock
    | ok => rw [Validation.readClock, hc, loadJWTConfig_replay hcfg, henv]; rfl
  · cases h
  · cases h

namespace JtiCache

variable {t u : JtiKey × Int} {now : Int} {c : JtiCache}

def single (t : JtiKey × Int) : JtiCache :=
  { seen := Function.update (fun _ => none) t.1 (some t.2), byExp := [⟨t.1, t.2⟩] }

private theorem firstUse_new (t : JtiKey × Int) (h : c.prune now = {}) : c.firstUse t.1 t.2 now = (true, single t) := by
  rw [firstUse, h]
  rfl

private theorem prune_single (h : t.2 < now) : (single t).prune now = {} := by
  have hpop : Heap.pop less (single t).byExp = some (⟨t.1, t.2⟩, []) := rfl
  have hstep : (single t).pruneStep now = some {} := by
    simp only [pruneStep, single, h, if_true] at hpop ⊢
    rw [hpop]
    simp
  rw [prune, Loop.run, hstep]
  rfl

private theorem firstUse_single (hne : t.1 ≠ u.1) (h : t.2 < u.2) : ((single u).firstUse t.1 t.2 t.2).1 = true := by
  have hstep : (single u).pruneStep t.2 = none := if_neg (by simp; omega)
  have hprune : (single u).prune t.2 = single u := Loop.run_of_none hstep _
  rw [firstUse, hprune, if_neg (by simp [single, hne])]

end JtiCache

/-- Whatever the library: a call that read its clock after the expiry of a token enters the cache before the second
use of it. -/
theorem token_accepted_twice : (∀ (lib : Codec) (env : Env) (token other : String) (t u : JtiKey × Int),
      envBool env "FXP_JWT_REPLAY_CACHE" = true → Validation.brings lib env token t.2 = some t →
      Validation.brings lib env other (t.2 + 1) = some u → t.1 ≠ u.1 → t.2 < u.2 →
      ∃ s, Machine.Reach (Auth.step lib) replayOn { clock := t.2 } s ∧
        s.calls.map Validation.token = [some t, some t, some u]) ∧
    envBool .sample "FXP_JWT_REPLAY_CACHE" = true ∧
    Validation.brings .sample .sample "h.T.secrethT" 100 = some (⟨"fxp-dev", "", "T"⟩, 100) ∧
    Validation.brings .sample .sample "h.U.secrethU" 101 = some (⟨"fxp-dev", "", "U"⟩, 200) := by
  refine ⟨?_, by decide +kernel, by decide +kernel, by decide +kernel⟩
  intro lib env token other t u henv ht hu hne hlt
  obtain ⟨_, hdr, claims, hstart, hclock, rfl⟩ := Validation.of_brings henv ht
  obtain ⟨_, hdr', claims', hstart', hclock', rfl⟩ := Validation.of_brings henv hu
  have hfirst : ({} : JtiCache).firstUse _ _ claims.exp = _ :=
    JtiCache.firstUse_new (replayKey hdr claims, claims.exp) rfl
  have hsecond := JtiCache.firstUse_new (replayKey hdr' claims', claims'.exp)
    (JtiCache.prune_single (t := (replayKey hdr claims, claims.exp)) (Int.lt_succ claims.exp))
  have hthird := JtiCache.firstUse_single hne hlt
  dsimp only at hclock hclock' hfirst hsecond hthird
  obtain ⟨s, hreach, hs⟩ := Machine.Reach.of_exec
    [.start env token, .readClock 0, .enterCache 0, .start env token, .readClock 1, .start env other, .elapse 1,
      .readClock 2, .enterCache 2, .enterCache 1]
    (.refl : Machine.Reach (Auth.step lib) replayOn { clock := claims.exp } _)
    (P := fun s => s.calls.map Validation.token = [some (replayKey hdr claims, claims.exp),
      some (replayKey hdr claims, claims.exp), some (replayKey hdr' claims', claims'.exp)])
    (by simp [Machine.exec, Auth.step, replayOn, henv, hstart, hclock, hstart', hclock', hfirst, hsecond, hthird,
      Validation.token])
  exact ⟨s, hreach, of_decide_eq_true hs⟩

end Fxp.Gateway
