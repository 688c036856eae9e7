import LFGateway.Foundation.Words
import LFGateway.Gateway.Impl.Api
import LFGateway.Http.Message

/-!
This module contains what Redis receives for the text of `RedisClient::xadd`, which hiredis reads as a
format: the arguments that were joined, as long as each of them is a word that has no percent sign.
-/

namespace LFGateway

open Foundation

/--
What hiredis makes of a format: the arguments it sends, `none` for an error, and whether a variadic
argument was read.
-/
structure Formatted where
  argv : Option (List Bytes)
  readsVariadic : Bool
  deriving DecidableEq, Repr

/--
The formatter of hiredis, as far as it is documented: a format is cut into words, and a conversion
reads an argument or is an error.
-/
structure DocumentedFormat (format : Bytes → Formatted) : Prop where
  plain : ∀ s t, 0 ∉ s → s.unescape = some t → format s = ⟨some t.words, false⟩
  conversion : ∀ s, 0 ∉ s → s.unescape = none → (format s).readsVariadic = true ∨ (format s).argv = none

/--
A text that is sent as one argument, and as it is, wherever it stands in a format.
-/
def PlainWord (w : Bytes) : Prop := w ≠ [] ∧ 32 ∉ w ∧ 0 ∉ w ∧ 37 ∉ w

instance (w : Bytes) : Decidable (PlainWord w) := inferInstanceAs (Decidable (_ ∧ _ ∧ _ ∧ _))

section Format

variable {format : Bytes → Formatted} {args : List Bytes}

theorem DocumentedFormat.words_of_eq (hformat : DocumentedFormat format) {s : Bytes} (hs : 0 ∉ s)
    (h : format s = ⟨some args, false⟩) : ∃ t, s.unescape = some t ∧ t.words = args := by
  cases hunescape : s.unescape with
  | none =>
    have hconversion := hformat.conversion s hs hunescape
    rw [h] at hconversion
    simp at hconversion
  | some t =>
    have hplain := hformat.plain s t hs hunescape
    rw [h, Formatted.mk.injEq, Option.some.injEq] at hplain
    exact ⟨t, rfl, hplain.1.symm⟩

theorem DocumentedFormat.spaced_iff (hformat : DocumentedFormat format) (args : List Bytes)
    : format (Bytes.spaced args).cStr = ⟨some args, false⟩
        ↔
      ∀ w ∈ args, PlainWord w := by
  constructor
  . intro h
    obtain ⟨t, hunescape, hwords⟩ := hformat.words_of_eq (Bytes.notMem_cStr _) h
    have hclean : ∀ w ∈ args, w ≠ [] ∧ 32 ∉ w ∧ 0 ∉ w := by
      intro w hw
      rw [← hwords] at hw
      obtain ⟨hne, hspace, hsub⟩ := Bytes.clean_of_mem_words hw
      refine ⟨hne, hspace, ?_⟩
      intro hzero
      exact Bytes.notMem_cStr _ (Bytes.mem_of_unescape hunescape (hsub 0 hzero))
    -- the text has no NUL, so the percent signs in it are all that is left to look at
    rw [Bytes.cStr_of_notMem (Bytes.notMem_spaced (fun w hw => (hclean w hw).2.2) (by decide))] at hunescape
    intro w hw
    obtain ⟨hne, hspace, hzero⟩ := hclean w hw
    exact ⟨hne, hspace, hzero, Bytes.notMem_of_unescape_spaced hunescape hwords hw⟩
  . intro h
    have hzero : 0 ∉ Bytes.spaced args :=
      Bytes.notMem_spaced (fun w hw => (h w hw).2.2.1) (by decide)
    have hpercent : 37 ∉ Bytes.spaced args :=
      Bytes.notMem_spaced (fun w hw => (h w hw).2.2.2) (by decide)
    rw [Bytes.cStr_of_notMem hzero, hformat.plain _ _ hzero (Bytes.unescape_of_notMem hpercent)]
    rw [Bytes.words_spaced (fun w hw => (h w hw).2.1), List.filter_eq_self.mpr]
    intro w hw
    simpa using (h w hw).1

end Format

namespace RedisClient

def xaddArgv (key : Bytes) (fields : List (Bytes × Bytes)) : List Bytes :=
  [Bytes.ofAscii "XADD", key, Bytes.ofAscii "MAXLEN", Bytes.ofAscii "~", Bytes.ofAscii "10000",
    Bytes.ofAscii "*"] ++ fields.flatMap fun kv => [kv.1, kv.2]

theorem xaddCmd_eq (key : Bytes) (fields : List (Bytes × Bytes))
    : xaddCmd key fields = Bytes.spaced (xaddArgv key fields) := by
  have hfields : ∀ fields : List (Bytes × Bytes),
      (fields.flatMap fun kv => kv.1 ++ Bytes.ofAscii " " ++ kv.2 ++ Bytes.ofAscii " ")
        = Bytes.spaced (fields.flatMap fun kv => [kv.1, kv.2]) := by
    intro fields
    induction fields with
    | nil => rfl
    | cons kv fields ih =>
      rw [List.flatMap_cons, List.flatMap_cons, ih]
      simp [Bytes.ofAscii, Bytes.spaced]
  have hverb : Bytes.ofAscii "XADD " = Bytes.ofAscii "XADD" ++ [32] := by decide
  have hoptions : Bytes.ofAscii " MAXLEN ~ 10000 * "
      = 32 :: Bytes.spaced [Bytes.ofAscii "MAXLEN", Bytes.ofAscii "~", Bytes.ofAscii "10000",
          Bytes.ofAscii "*"] := by decide
  rw [xaddCmd, xaddArgv, hfields, hverb, hoptions]
  simp [Bytes.spaced]

theorem returns_xadd {via : Member} {key : Bytes} {fields : List (Bytes × Bytes)} {h : List ApiEvent}
    : (∃ ok, Prog.Returns (xadd via key fields) h ok)
        ↔
      ∃ reply,
        h = [⟨.command via (.xadd (Bytes.spaced (xaddArgv key fields)).cStr), reply⟩] := by
  unfold xadd
  rw [xaddCmd_eq]
  constructor
  . rintro ⟨ok, hr⟩
    obtain ⟨reply, h, rfl, hreturn⟩ := Prog.returns_perform_bind.mp hr
    have hnil : h = [] := by
      split at hreturn <;> exact (Prog.returns_pure.mp hreturn).1
    rw [hnil]
    exact ⟨reply, rfl⟩
  . rintro ⟨reply, rfl⟩
    cases reply with
    | none => exact ⟨false, Prog.returns_perform_bind.mpr ⟨none, [], rfl, .nil _⟩⟩
    | some reply =>
      cases reply with
      | string text =>
        exact ⟨true, Prog.returns_perform_bind.mpr ⟨some (.string text), [], rfl, .nil _⟩⟩
      | integer | status | nil | error =>
        exact ⟨false, Prog.returns_perform_bind.mpr ⟨_, [], rfl, .nil _⟩⟩

end RedisClient

namespace LogConsumer

variable {format : Bytes → Formatted} {path : Bytes} {ns : Nat}

/--
The arguments for an entry: each field name with its value behind it.
-/
def argv (path : Bytes) (latencyNs : Nat) : List Bytes :=
  [Bytes.ofAscii "XADD", Bytes.ofAscii "log_stream", Bytes.ofAscii "MAXLEN", Bytes.ofAscii "~",
    Bytes.ofAscii "10000", Bytes.ofAscii "*",
    Bytes.ofAscii "latency_ms", latencyText latencyNs,
    Bytes.ofAscii "path", path,
    Bytes.ofAscii "status_code", Bytes.ofNat 200,
    Bytes.ofAscii "user_id", Bytes.ofNat 0]

theorem argv_eq (path : Bytes) (latencyNs : Nat)
    : argv path latencyNs
        =
      RedisClient.xaddArgv (Bytes.ofAscii "log_stream") [
        (Bytes.ofAscii "latency_ms", latencyText latencyNs),
        (Bytes.ofAscii "path", path),
        (Bytes.ofAscii "status_code", Bytes.ofNat 200),
        (Bytes.ofAscii "user_id", Bytes.ofNat 0)] := rfl

theorem notMem_latencyText {c : UInt8} (hpoint : c ≠ 46) (hdigit : c.toNat < 48 ∨ 57 < c.toNat)
    (ns : Nat) : c ∉ latencyText ns := by
  have hdigits : ¬∃ d < 10, c = Bytes.digit d := by
    rintro ⟨d, hd, rfl⟩
    rw [Bytes.toNat_digit hd] at hdigit
    omega
  intro hmem
  simp only [latencyText, List.mem_append] at hmem
  rcases hmem with ((hwhole | hdot) | hfill) | hfraction
  . exact hdigits (Bytes.exists_digit_of_mem_ofNat hwhole)
  . exact hpoint (by simpa [Bytes.ofAscii] using hdot)
  . exact hdigits ⟨0, by decide, List.eq_of_mem_replicate hfill⟩
  . exact hdigits (Bytes.exists_digit_of_mem_ofNat hfraction)

theorem plainWord_latencyText (ns : Nat) : PlainWord (latencyText ns) :=
  ⟨by simp [latencyText, Bytes.ofNat_ne_nil], notMem_latencyText (by decide) (by decide) ns,
    notMem_latencyText (by decide) (by decide) ns, notMem_latencyText (by decide) (by decide) ns⟩

theorem plainWord_argv_iff (hpath : 32 ∉ path)
    : (∀ w ∈ argv path ns, PlainWord w) ↔ path ≠ [] ∧ 0 ∉ path ∧ 37 ∉ path := by
  have hfixed : ∀ w ∈ [Bytes.ofAscii "XADD", Bytes.ofAscii "log_stream", Bytes.ofAscii "MAXLEN",
      Bytes.ofAscii "~", Bytes.ofAscii "10000", Bytes.ofAscii "*", Bytes.ofAscii "latency_ms",
      Bytes.ofAscii "path", Bytes.ofAscii "status_code", Bytes.ofNat 200, Bytes.ofAscii "user_id",
      Bytes.ofNat 0], PlainWord w := by decide
  have hlatency := plainWord_latencyText ns
  constructor
  . intro h
    obtain ⟨hne, _, hclean⟩ := h path (by simp [argv])
    exact ⟨hne, hclean⟩
  . intro h w hw
    have hplain : PlainWord path := ⟨h.1, hpath, h.2⟩
    simp only [argv, List.mem_cons, List.not_mem_nil, or_false] at hw hfixed
    grind

theorem returns_push {h : List ApiEvent}
    : Prog.Returns (push path ns) h ()
        ↔
      ∃ reply,
        h = [⟨.command .logConsumer_ (.xadd (Bytes.spaced (argv path ns)).cStr), reply⟩] := by
  unfold push
  rw [argv_eq, Prog.returns_bind]
  constructor
  . rintro ⟨_, h₁, h₂, rfl, hxadd, hrest⟩
    obtain ⟨rfl, _⟩ := Prog.returns_pure.mp hrest
    rw [List.append_nil]
    exact (RedisClient.returns_xadd.mp ⟨_, hxadd⟩)
  . rintro ⟨reply, rfl⟩
    obtain ⟨ok, hxadd⟩ := RedisClient.returns_xadd.mpr ⟨reply, rfl⟩
    exact ⟨ok, _, [], (List.append_nil _).symm, hxadd, Prog.returns_pure.mpr ⟨rfl, rfl⟩⟩

/--
Redis receives an entry as it was pushed if and only if the path is not empty and has neither a
percent sign nor a NUL byte.
-/
theorem sends_argv_iff (hformat : DocumentedFormat format) (hpath : HttpParser.RequestPath path)
    {h : List ApiEvent} (hr : Prog.Returns (push path ns) h ())
    : ∃ cmd reply, h = [⟨.command .logConsumer_ (.xadd cmd), reply⟩] ∧
        (format cmd = ⟨some (argv path ns), false⟩ ↔ path ≠ [] ∧ 0 ∉ path ∧ 37 ∉ path) := by
  obtain ⟨reply, hevents⟩ := returns_push.mp hr
  refine ⟨_, reply, hevents, ?_⟩
  rw [hformat.spaced_iff, plainWord_argv_iff (HttpParser.requestPath_iff.mp hpath)]

end LogConsumer

def plainFormat (s : Bytes) : Formatted := ⟨s.unescape.map Bytes.words, false⟩

theorem documented_plainFormat : DocumentedFormat plainFormat where
  plain s t _ h := by rw [plainFormat, h, Option.map_some]
  conversion s _ h := by
    rw [plainFormat, h]
    exact .inr rfl

namespace LogConsumer

theorem sends_argv_iff_users
    : ∃ cmd reply,
        [(⟨.command .logConsumer_ (.xadd (Bytes.spaced
          (argv (Bytes.ofAscii "/api/users") 1234567)).cStr), some (.string [])⟩ : ApiEvent)]
            = [⟨.command .logConsumer_ (.xadd cmd), reply⟩] ∧
        plainFormat cmd = ⟨some (argv (Bytes.ofAscii "/api/users") 1234567), false⟩ := by
  obtain ⟨cmd, reply, hevents, hiff⟩ := sends_argv_iff documented_plainFormat
    (HttpParser.requestPath_iff.mpr (by decide : 32 ∉ Bytes.ofAscii "/api/users"))
    (returns_push.mpr ⟨some (.string []), rfl⟩)
  exact ⟨cmd, reply, hevents, hiff.mpr (by decide)⟩

/--
An encoded space in a path is a conversion that hiredis does not know.
-/
theorem not_sends_argv_encoded
    : HttpParser.RequestPath (Bytes.ofAscii "/a%20b") ∧
        ∃ cmd, Prog.Returns (push (Bytes.ofAscii "/a%20b") 1234567)
          [⟨.command .logConsumer_ (.xadd cmd), none⟩] () ∧
          plainFormat cmd ≠ ⟨some (argv (Bytes.ofAscii "/a%20b") 1234567), false⟩ := by
  refine ⟨HttpParser.requestPath_iff.mpr (by decide), _, returns_push.mpr ⟨none, rfl⟩, ?_⟩
  rw [ne_eq, documented_plainFormat.spaced_iff]
  intro h
  exact absurd (h (Bytes.ofAscii "/a%20b") (by simp [argv])) (by decide)

end LogConsumer
end LFGateway
