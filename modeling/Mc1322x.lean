import Mc1322x.Lib.Lts
import Mc1322x.Lib.Machine
import Mc1322x.Lib.Known
import Mc1322x.Embassy.TimeDriver
import Mc1322x.Embassy.Clock
import Mc1322x.Embassy.CompareLoop
import Mc1322x.Embassy.Resync
import Mc1322x.Embassy.SleepyExecutor
import Mc1322x.Embassy.DueTimers
import Mc1322x.Embassy.Timers
import Mc1322x.Lib.Slots
import Mc1322x.Hal.CriticalSection
import Mc1322x.Hal.Watchdog
import Mc1322x.Hal.WatchdogPeriod
import Mc1322x.Hal.WatchdogTimeout
import Mc1322x.Hal.WatchdogCount
import Mc1322x.Embassy.TaskWatchdog
import Mc1322x.Embassy.WatchdogRun
import Mc1322x.Radio.Attribution
import Mc1322x.Radio.RadioHal
import Mc1322x.Radio.Layout
import Mc1322x.Radio.Pool
import Mc1322x.Radio.Window
import Mc1322x.Radio.Cancel
import Mc1322x.Radio.TransmitQueue
import Mc1322x.Radio.Channel
import Mc1322x.Radio.Transmissions
import Mc1322x.Radio.Lengths
import Mc1322x.Radio.Combined
import Mc1322x.Lib.Async
import Mc1322x.Lib.Trace
import Mc1322x.Lib.Bytes
import Mc1322x.Lib.Ccm
import Mc1322x.Hal.Aes
import Mc1322x.Hal.AesCcm
import Mc1322x.Hal.AesAsync
import Mc1322x.Hal.AesWait
import Mc1322x.Lib.Outline
import Mc1322x.Hal.I2c
import Mc1322x.Hal.I2cWire
import Mc1322x.Hal.I2cTransaction
import Mc1322x.Hal.Spi
import Mc1322x.Hal.Nvm
import Mc1322x.Hal.Uart
import Mc1322x.Lib.Net
import Mc1322x.Hal.I2cAsync
import Mc1322x.Hal.UartAsync
import Mc1322x.Hal.UartPoll
import Mc1322x.Hal.Crm
import Mc1322x.Hal.CrmWaits
import Mc1322x.Hal.CrmSleep
import Mc1322x.Embassy.Node
import Mc1322x.Hal.Delay
import Mc1322x.Hal.Adc
import Mc1322x.Hal.AdcReads
import Mc1322x.Hal.AdcVoltage
import Mc1322x.Hal.AesRest
import Mc1322x.Hal.SpiAsync
import Mc1322x.Ssl.Flashing
import Mc1322x.Ssl.Dispatch
import Mc1322x.Ssl.EraseMasks
import Mc1322x.Ssl.Rounds
import Mc1322x.Ssl.Reserved
import Mc1322x.Ssl.Banner
import Mc1322x.Ssl.Reply
import Mc1322x.Ssl.Remote
import Mc1322x.Flash.Algorithm
import Mc1322x.Flash.Programming
import Mc1322x.Radio.Frames
