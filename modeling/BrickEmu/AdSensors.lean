import BrickEmu.Timer16

/-!
# The analog-digital converter

The registers of `adsensors.c`.  A conversion takes 134 or 266 cycles; scan
mode converts a group of channels one after the other.
-/

namespace BrickEmu

structure AdSensors where
  values : ℕ → Word
  polled : ℕ → Word
  tmp : Byte
  adcsr : Byte
  readAdcsr : Byte
  adcr : Byte
  adchannel : Byte
  adStartCycle : ℕ

namespace AdSensors

def ADF : Byte := 0x80
def ADIE : Byte := 0x40
def ADST : Byte := 0x20
def SCAN : Byte := 0x10
def CKS : Byte := 0x08
def CH : Byte := 0x07

def convTime (ad : AdSensors) : ℕ :=
  if ad.adcsr &&& CKS ≠ 0 then 134 else 266

end AdSensors

open AdSensors

def adReset (ad : AdSensors) : AdSensors :=
  { ad with adcr := 0x7f, adcsr := 0, adchannel := 0 }

def adReadFd (channel : ℕ) (value : Word) (ad : AdSensors) : AdSensors :=
  { ad with values := Function.update ad.values channel value }

def adCheckNextCycle (ad : AdSensors) (clock : Clock) : Clock :=
  if ad.adcsr &&& 0xc0 = 0xc0 then
    { clock with nextTimerCycle := clock.cycles }
  else if ad.adcsr &&& (ADIE ||| ADST) = ADIE ||| ADST then
    let nextConvTime := addToCycle ad.adStartCycle ad.convTime
    if nextConvTime < clock.nextTimerCycle then
      { clock with nextTimerCycle := nextConvTime }
    else clock
  else clock

/-- The conversion that ends in one pass of the loop of `ad_update_time`. -/
def adConvert (convTime : ℕ) (ad : AdSensors) : AdSensors :=
  let ad := { ad with
    polled := Function.update ad.polled (ad.adchannel &&& 3).toNat
      (ad.values ad.adchannel.toNat) }
  let stopped := (ad.adcsr &&& ~~~ADST) ||| ADF
  if ad.adcsr &&& SCAN ≠ 0 then
    let ad := { ad with adStartCycle := ad.adStartCycle + convTime }
    if ad.adchannel < ad.adcsr &&& CH then
      { ad with adchannel := ad.adchannel + 1 }
    else { ad with adchannel := ad.adchannel &&& 4, adcsr := stopped }
  else { ad with adcsr := stopped }

/-- The loop of `ad_update_time`.  A scan ends after at most eight
conversions. -/
def adLoop (cycles convTime : ℕ) : ℕ → AdSensors → AdSensors
  | 0, ad => ad
  | fuel + 1, ad =>
      if ad.adcsr &&& ADST = 0 then ad
      else if int32 ((cycles : ℤ) - ad.adStartCycle) < convTime then ad
      else adLoop cycles convTime fuel (adConvert convTime ad)

def adUpdateTime (clock : Clock) (ad : AdSensors) : AdSensors × Clock :=
  let ad := adLoop clock.cycles ad.convTime 8 ad
  (ad, adCheckNextCycle ad clock)

def adCheckIrq (ad : AdSensors) : ℕ :=
  if ad.adcsr &&& 0xc0 = 0xc0 then 35 else 255

def setAdcsr (value : Byte) (clock : Clock) (ad : AdSensors) :
    AdSensors × Clock :=
  let value := value &&& (0x7f ||| ad.readAdcsr)
  let ad :=
    if ~~~ad.adcsr &&& value &&& ADST ≠ 0 then
      { ad with
        adchannel := if value &&& SCAN ≠ 0 then value &&& 4 else value &&& CH
        adStartCycle := clock.cycles }
    else ad
  let ad := { ad with adcsr := value }
  (ad, adCheckNextCycle ad clock)

def getAdcsr (ad : AdSensors) : Byte × AdSensors :=
  (ad.adcsr, { ad with readAdcsr := ad.adcsr })

def setAdcr (value : Byte) (clock : Clock) (ad : AdSensors) :
    AdSensors × Clock :=
  let ad := { ad with adcr := value ||| 0x7f }
  (ad, adCheckNextCycle ad clock)

/-- The `get_addr?h` functions, which leave the low bits in `tmp`. -/
def getAddrh (channel : ℕ) (ad : AdSensors) : Byte × AdSensors :=
  ((ad.polled channel).extractLsb' 8 8,
    { ad with tmp := (ad.polled channel).extractLsb' 0 8 &&& 0xc0 })

end BrickEmu
