import QnxStartup.Machine

/-! `_uefi_exit_boot_services`: a key of the memory map is fetched and given back to the
firmware until it accepts one. -/

namespace QnxStartup

def efiSuccess : Nat := 0

def efiErr (a : Nat) : Nat := 0x8000000000000000 ||| a

def efiInvalidParameter : Nat := efiErr 2

def efiBufferTooSmall : Nat := efiErr 5

def uefiExitRetryMax : Nat := 2

/-- The status of a `GetMemoryMap` and the caller's variables as it leaves them. -/
structure MapAnswer where
  status : Nat
  mapSize : Nat
  mapKey : Nat
  descSize : Nat

structure PoolAnswer where
  status : Nat
  desc : Nat

inductive UefiCall where
  | getMemoryMap (mapSize desc : Nat) (answer : MapAnswer)
  | allocatePool (size : Nat) (answer : PoolAnswer)
  | freePool (desc : Nat)
  | exitBootServices (mapKey status : Nat)

/-- What the firmware will answer, call by call; a service that has no answer left does
not return. -/
structure Firmware where
  maps : List MapAnswer
  pools : List PoolAnswer
  exits : List Nat

/-- A map in the buffer `desc`, with the calls made so far and the answers still to come. -/
structure FetchedMap where
  mapKey : Nat
  desc : Nat
  calls : List UefiCall
  maps : List MapAnswer
  pools : List PoolAnswer

def fetchMap (maps : List MapAnswer) (mapSize descSize : Nat) (calls : List UefiCall) :
    List PoolAnswer → Startup FetchedMap
  | [] => .error .noReturn
  | p :: pools =>
    let size := (mapSize + descSize) % 2 ^ 64
    if p.desc = 0 ∨ p.status ≠ efiSuccess then
      crash "Fatal error while allocating the UEFI memory map buffer\n"
    else
      match maps with
      | [] => .error .noReturn
      | a :: maps =>
        let calls := calls ++ [.allocatePool size p, .getMemoryMap size p.desc a]
        if a.status = efiSuccess then .ok ⟨a.mapKey, p.desc, calls, maps, pools⟩
        else if a.status = efiBufferTooSmall then
          fetchMap maps a.mapSize a.descSize (calls ++ [.freePool p.desc]) pools
        else crash "Failed to get the UEFI memory map with error %l\n"
termination_by structural pools => pools

/-- The outer loop, which also ends when the retries are used up. -/
def exitLoop (maps : List MapAnswer) (pools : List PoolAnswer) (retryCnt : Nat)
    (calls : List UefiCall) (exits : List Nat) : Startup (List UefiCall) :=
  match maps with
  | [] => .error .noReturn
  | a :: maps =>
    if a.status ≠ efiBufferTooSmall then crash "Failed to query the UEFI memory map with error %l\n"
    else
      (fetchMap maps a.mapSize a.descSize (calls ++ [.getMemoryMap 0 0 a]) pools).bind fun r =>
        match exits with
        | [] => .error .noReturn
        | status :: exits =>
          let calls := r.calls ++ [.exitBootServices r.mapKey status]
          if status = efiInvalidParameter ∧ retryCnt ≤ uefiExitRetryMax then
            let calls := calls ++ [.freePool r.desc]
            -- `continue` goes to the loop test
            if retryCnt + 1 ≤ uefiExitRetryMax then
              exitLoop r.maps r.pools (retryCnt + 1) calls exits
            else .ok calls
          else if status ≠ efiSuccess then crash "Could not exit boot services\n"
          else .ok calls
termination_by structural exits

structure UefiState where
  initCnt : Nat
  conOut : Nat
  conIn : Nat
  bootServices : Nat
  exitBootServicesF : Nat
  interrupts : Bool

def uefiExitBootServices (s : UefiState) (fw : Firmware) : Startup (UefiState × List UefiCall) :=
  if s.initCnt = 0 then crash "uefi.c:60 -- ASSERT(uefi_init_cnt > 0) failed!\n\n"
  else if s.initCnt - 1 = 0 then
    (exitLoop fw.maps fw.pools 0 [] fw.exits).bind fun calls =>
      .ok ({ initCnt := 0, conOut := 0, conIn := 0, bootServices := 0, exitBootServicesF := 0,
             interrupts := false }, calls)
  else .ok ({ s with initCnt := s.initCnt - 1, interrupts := false }, [])

def UefiCall.key : UefiCall → Option Nat
  | .getMemoryMap _ _ a => if a.status = efiSuccess then some a.mapKey else none
  | _ => none

def UefiCall.exit : UefiCall → Option (Nat × Nat)
  | .exitBootServices mapKey status => some (mapKey, status)
  | _ => none

def latestKey (calls : List UefiCall) : Option Nat := (calls.filterMap UefiCall.key).getLast?

def lastExit (calls : List UefiCall) : Option (Nat × Nat) :=
  (calls.filterMap UefiCall.exit).getLast?

/-- The firmware has let go, and of the map the caller knows. -/
def LeftBootServices (calls : List UefiCall) : Prop :=
  ∃ key, lastExit calls = some (key, efiSuccess) ∧ latestKey calls = some key

section
variable {maps : List MapAnswer} {pools : List PoolAnswer} {exits : List Nat}
  {calls out : List UefiCall}
  {mapSize descSize cnt : Nat}

@[simp] theorem latestKey_got (size desc : Nat) {a : MapAnswer} (h : a.status = efiSuccess) :
    latestKey (calls ++ [.getMemoryMap size desc a]) = some a.mapKey := by
  simp [latestKey, List.filterMap_append, UefiCall.key, h]

@[simp] theorem latestKey_exit (key status : Nat) :
    latestKey (calls ++ [.exitBootServices key status]) = latestKey calls := by
  simp [latestKey, List.filterMap_append, UefiCall.key]

@[simp] theorem lastExit_exit (key status : Nat) :
    lastExit (calls ++ [.exitBootServices key status]) = some (key, status) := by
  simp [lastExit, List.filterMap_append, UefiCall.exit]

@[simp] theorem lastExit_free (desc : Nat) :
    lastExit (calls ++ [.freePool desc]) = lastExit calls := by
  simp [lastExit, List.filterMap_append, UefiCall.exit]

theorem fetchMap_key {r : FetchedMap} (h : fetchMap maps mapSize descSize calls pools = .ok r) :
    latestKey r.calls = some r.mapKey := by
  induction pools generalizing maps mapSize descSize calls with
  | nil => cases h
  | cons p pools ih =>
    rw [fetchMap.eq_def] at h
    obtain ⟨-, h⟩ := crash_ite_eq_ok.mp h
    cases maps with
    | nil => cases h
    | cons a maps =>
      dsimp only at h
      by_cases hs : a.status = efiSuccess
      · rw [if_pos hs] at h
        cases h
        rw [List.append_cons]
        exact latestKey_got _ _ hs
      · rw [if_neg hs] at h
        by_cases hsmall : a.status = efiBufferTooSmall
        · rw [if_pos hsmall] at h
          exact ih h
        · rw [if_neg hsmall] at h
          cases h

theorem exitLoop_turn (h : exitLoop maps pools cnt calls exits = .ok out) :
    ∃ (r : FetchedMap) (status : Nat) (rest : List Nat), exits = status :: rest ∧
      latestKey r.calls = some r.mapKey ∧
      ((status = efiSuccess ∧ out = r.calls ++ [.exitBootServices r.mapKey status]) ∨
        (status = efiInvalidParameter ∧
          ((cnt + 1 ≤ uefiExitRetryMax ∧ exitLoop r.maps r.pools (cnt + 1)
              (r.calls ++ [.exitBootServices r.mapKey status] ++ [.freePool r.desc]) rest =
                .ok out) ∨
            (uefiExitRetryMax < cnt + 1 ∧
              out = r.calls ++ [.exitBootServices r.mapKey status] ++ [.freePool r.desc])))) := by
  rw [exitLoop.eq_def] at h
  cases maps with
  | nil => cases h
  | cons a maps =>
    dsimp only at h
    rw [crash_ite_eq_ok] at h
    obtain ⟨r, hr, h⟩ := bind_eq_ok.mp h.2
    cases exits with
    | nil => cases h
    | cons status rest =>
      refine ⟨r, status, rest, rfl, fetchMap_key hr, ?_⟩
      dsimp only at h
      by_cases hinv : status = efiInvalidParameter ∧ cnt ≤ uefiExitRetryMax
      · rw [if_pos hinv] at h
        refine .inr ⟨hinv.1, ?_⟩
        by_cases hcnt : cnt + 1 ≤ uefiExitRetryMax
        · rw [if_pos hcnt] at h
          exact .inl ⟨hcnt, h⟩
        · rw [if_neg hcnt] at h
          cases h
          exact .inr ⟨by omega, rfl⟩
      · rw [if_neg hinv, crash_ite_eq_ok] at h
        obtain ⟨hs, hout⟩ := h
        cases hout
        exact .inl ⟨not_not.mp hs, rfl⟩

/-- `n` refusals end the loop with the last one; anything else it returns from is a success. -/
theorem exitLoop_ok {n : Nat} (hcnt : cnt + n = uefiExitRetryMax + 1) (hn : 0 < n)
    (h : exitLoop maps pools cnt calls exits = .ok out) :
    LeftBootServices out ↔ exits.take n ≠ List.replicate n efiInvalidParameter := by
  induction n generalizing maps pools cnt calls exits with
  | zero => omega
  | succ n ih =>
    obtain ⟨r, status, rest, rfl, hkey, hend⟩ := exitLoop_turn h
    rw [List.take_succ_cons, List.replicate_succ]
    rcases hend with ⟨rfl, rfl⟩ | ⟨rfl, ⟨hmore, hrest⟩ | ⟨hlast, rfl⟩⟩
    · have hleft : LeftBootServices (r.calls ++ [.exitBootServices r.mapKey efiSuccess]) :=
        ⟨r.mapKey, lastExit_exit _ _, by rw [latestKey_exit, hkey]⟩
      have hne : efiSuccess ≠ efiInvalidParameter := by decide
      exact iff_of_true hleft fun heq => hne (List.cons.inj heq).1
    · rw [ih (by omega) (by omega) hrest]
      simp
    · obtain rfl : n = 0 := by omega
      refine iff_of_false ?_ (by simp)
      rintro ⟨key, hexit, -⟩
      rw [lastExit_free, lastExit_exit] at hexit
      have hstatus : efiInvalidParameter = efiSuccess := (Prod.mk.inj (Option.some.inj hexit)).2
      exact absurd hstatus (by decide)

end

/-- When the call that brings the count to 0 returns, the firmware has let go unless it refused as
often as it is asked. -/
theorem uefi_exit_boot_services_left {s s' : UefiState} {fw : Firmware} {calls : List UefiCall}
    (h : uefiExitBootServices s fw = .ok (s', calls)) (hcnt : s'.initCnt = 0) :
    LeftBootServices calls ↔
      fw.exits.take (uefiExitRetryMax + 1) ≠
        List.replicate (uefiExitRetryMax + 1) efiInvalidParameter := by
  rw [uefiExitBootServices, crash_ite_eq_ok] at h
  obtain ⟨hpos, h⟩ := h
  by_cases hlast : s.initCnt - 1 = 0
  · rw [if_pos hlast] at h
    obtain ⟨out, hout, heq⟩ := bind_eq_ok.mp h
    cases heq
    exact exitLoop_ok (Nat.zero_add _) (Nat.succ_pos _) hout
  · rw [if_neg hlast] at h
    cases h
    exact absurd hcnt hlast

def uefiRunning : UefiState := ⟨1, 0x10, 0x20, 0x30, 0x40, true⟩

/-- A map of 48-byte descriptors that grows while it is fetched, and whose key is refused once. -/
def movingMap : Firmware where
  maps := [⟨efiBufferTooSmall, 96, 0, 48⟩, ⟨efiBufferTooSmall, 192, 0, 48⟩,
    ⟨efiSuccess, 192, 7, 48⟩, ⟨efiBufferTooSmall, 192, 0, 48⟩, ⟨efiSuccess, 192, 8, 48⟩]
  pools := [⟨efiSuccess, 0x1000⟩, ⟨efiSuccess, 0x2000⟩, ⟨efiSuccess, 0x3000⟩]
  exits := [efiInvalidParameter, efiSuccess]

theorem uefi_exit_boot_services_left_example :
    ∃ s' calls, uefiExitBootServices uefiRunning movingMap = .ok (s', calls) ∧ s'.initCnt = 0 ∧
      LeftBootServices calls :=
  ⟨_, _, rfl, rfl, (@uefi_exit_boot_services_left uefiRunning _ movingMap _ rfl rfl).mpr
    (by decide)⟩

def refusing : Firmware where
  maps := [⟨efiBufferTooSmall, 96, 0, 48⟩, ⟨efiSuccess, 96, 7, 48⟩, ⟨efiBufferTooSmall, 96, 0, 48⟩,
    ⟨efiSuccess, 96, 8, 48⟩, ⟨efiBufferTooSmall, 96, 0, 48⟩, ⟨efiSuccess, 96, 9, 48⟩]
  pools := [⟨efiSuccess, 0x1000⟩, ⟨efiSuccess, 0x1000⟩, ⟨efiSuccess, 0x1000⟩]
  exits := [efiInvalidParameter, efiInvalidParameter, efiInvalidParameter]

/-- Three refusals, and the pointers are cleared all the same. -/
theorem uefi_exit_boot_services_refused :
    ∃ s' calls, uefiExitBootServices uefiRunning refusing = .ok (s', calls) ∧ s'.initCnt = 0 ∧
      s'.bootServices = 0 ∧ ¬ LeftBootServices calls := by
  refine ⟨_, _, rfl, rfl, rfl, ?_⟩
  rintro ⟨key, hexit, -⟩
  have hstatus : efiInvalidParameter = efiSuccess := (Prod.mk.inj (Option.some.inj hexit)).2
  exact absurd hstatus (by decide)

end QnxStartup
